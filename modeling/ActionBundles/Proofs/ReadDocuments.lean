import ActionBundles.Proofs.ReadTokens
import ActionBundles.Yaml.Reader

/-!
# Written documents are read back

The tokens of a written document make up one node, in which there are neither anchors nor tags, and
the value of that node is the one that was written: texts are texts, however much they may look like
something else, and no key comes twice (`read?_render`).
-/

namespace ActionBundles.Yaml

/-! ### Nodes -/

mutual

/-- The node of a part of a document. -/
def Outline.node : Outline → Node
  | .bool value => .scalar {} (if value then "true" else "false") true
  | .text t => .scalar {} t (styleOf t = .plain)
  | .mapping entries => .mapping {} (entryNodes entries)

/-- The nodes of the entries of a mapping. -/
def entryNodes : List (Text × Outline) → List (Node × Node)
  | [] => []
  | (key, value) :: rest => (.scalar {} key (styleOf key = .plain), value.node) :: entryNodes rest

end

namespace Node

section Tokens

variable {handles : Handles} {block loose : Bool} {bound : Nat} {ts ts' : List Token}
  {anchors : List (Text × Nat)} {t : Text} {plain : Bool} {entries : List (Node × Node)}
  {r r' : Reading} {node : Node}

theorem read_scalar : read handles block loose (bound + 1) ⟨.scalar t plain :: ts, anchors⟩ =
    some (.scalar {} t plain, ⟨ts, anchors⟩) := rfl

theorem read_empty :
    read handles block loose (bound + 2) ⟨.openFlowMapping :: .closeFlowMapping :: ts, anchors⟩ =
      some (.mapping {} [], ⟨ts, anchors⟩) := rfl

theorem read_mapping (h : readKeys handles bound ⟨ts, anchors⟩ = some (entries, r)) :
    read handles true loose (bound + 1) ⟨.openBlockMapping :: ts, anchors⟩ =
      some (.mapping {} entries, r) := by
  have hunfold : read handles true loose (bound + 1) ⟨.openBlockMapping :: ts, anchors⟩ =
      (readKeys handles bound ⟨ts, anchors⟩).bind fun x => some (.mapping {} x.1, x.2) := rfl
  rw [hunfold, h]
  rfl

theorem readUnless_of_read {first : Token} (hfirst : first ∉ ts')
    (h : read handles block loose bound ⟨first :: ts, anchors⟩ = some (node, r)) :
    readUnless handles block loose ts' (bound + 1) ⟨first :: ts, anchors⟩ = some (node, r) := by
  have hunfold : readUnless handles block loose ts' (bound + 1) ⟨first :: ts, anchors⟩ =
      (if decide (first ∈ ts') = true then pure missing else read handles block loose bound)
        ⟨first :: ts, anchors⟩ := rfl
  rw [hunfold, if_neg (by simpa using hfirst), h]

theorem readKeys_nil :
    readKeys handles (bound + 1) ⟨.closeBlock :: ts, anchors⟩ = some ([], ⟨ts, anchors⟩) := rfl

/-- The tokens at which a key or a value of a mapping in a block is missing. -/
def stops : List Token := [.key, .value, .closeBlock]

theorem readKeys_cons {key value : Node}
    (hkey : readUnless handles true true stops bound ⟨ts, anchors⟩ =
      some (key, ⟨.value :: ts', anchors⟩))
    (hvalue : readUnless handles true true stops bound ⟨ts', anchors⟩ = some (value, r))
    (hrest : readKeys handles bound r = some (entries, r')) :
    readKeys handles (bound + 1) ⟨.key :: ts, anchors⟩ = some ((key, value) :: entries, r') := by
  have hunfold : readKeys handles (bound + 1) ⟨.key :: ts, anchors⟩ =
      (readUnless handles true true stops bound ⟨ts, anchors⟩).bind fun x =>
        (if x.2.tokens.head? = some .value then do
          skip
          let value ← readUnless handles true true stops bound
          return (x.1, value) :: (← readKeys handles bound)
        else do
          let value ← pure missing
          return (x.1, value) :: (← readKeys handles bound) : Reader (List (Node × Node))) x.2 := rfl
  have hvalues : (do
      skip
      let value ← readUnless handles true true stops bound
      return (key, value) :: (← readKeys handles bound) : Reader (List (Node × Node)))
        ⟨.value :: ts', anchors⟩ =
      (readUnless handles true true stops bound ⟨ts', anchors⟩).bind fun y =>
        (readKeys handles bound y.2).bind fun z => some ((key, y.1) :: z.1, z.2) := rfl
  rw [hunfold, hkey, Option.bind_some]
  refine (congrFun (if_pos rfl) _).trans (hvalues.trans ?_)
  rw [hvalue, Option.bind_some, hrest]
  rfl

/-- The tokens of a part of a document are read as its node. -/
def ReadsAs (v : Outline) : Prop :=
  ∀ (handles : Handles) (loose : Bool) (bound : Nat) (ts : List Token) (anchors : List (Text × Nat)),
    2 * v.tokens.length ≤ bound →
    read handles true loose bound ⟨v.tokens ++ ts, anchors⟩ = some (v.node, ⟨ts, anchors⟩)

theorem exists_tokens_eq_cons (v : Outline) :
    ∃ first rest, v.tokens = first :: rest ∧ first ∉ stops := by
  cases v with
  | bool value => exact ⟨_, _, rfl, by simp [stops]⟩
  | text t => exact ⟨_, _, rfl, by simp [stops]⟩
  | mapping entries =>
    cases entries with
    | nil => exact ⟨_, _, rfl, by simp [stops]⟩
    | cons e rest => exact ⟨_, _, rfl, by simp [stops]⟩

theorem readKeys_entries {outlines : List (Text × Outline)} (hvalues : ∀ e ∈ outlines, ReadsAs e.2)
    (hbound : 2 * (entryTokens outlines).length + 1 ≤ bound) :
    readKeys handles bound ⟨entryTokens outlines ++ .closeBlock :: ts, anchors⟩ =
      some (entryNodes outlines, ⟨ts, anchors⟩) := by
  induction outlines generalizing bound with
  | nil =>
    obtain ⟨bound, rfl⟩ : ∃ k, bound = k + 1 := ⟨bound - 1, by omega⟩
    exact readKeys_nil
  | cons e outlines ih =>
    obtain ⟨key, v⟩ := e
    have hlength : (entryTokens ((key, v) :: outlines)).length =
        3 + v.tokens.length + (entryTokens outlines).length := by
      simp [entryTokens]
      omega
    rw [hlength] at hbound
    obtain ⟨bound, rfl⟩ : ∃ k, bound = k + 3 := ⟨bound - 3, by omega⟩
    obtain ⟨first, rest, hfirst, hstop⟩ := exists_tokens_eq_cons v
    have hvalue : read handles true true (bound + 1)
        ⟨v.tokens ++ (entryTokens outlines ++ .closeBlock :: ts), anchors⟩ =
          some (v.node, ⟨entryTokens outlines ++ .closeBlock :: ts, anchors⟩) :=
      hvalues _ List.mem_cons_self _ _ _ _ _ (by dsimp only; omega)
    have hunless : readUnless handles true true stops (bound + 1 + 1)
        ⟨v.tokens ++ (entryTokens outlines ++ .closeBlock :: ts), anchors⟩ =
          some (v.node, ⟨entryTokens outlines ++ .closeBlock :: ts, anchors⟩) := by
      rw [hfirst, List.cons_append] at hvalue ⊢
      exact readUnless_of_read hstop hvalue
    have hkeys : entryTokens ((key, v) :: outlines) ++ .closeBlock :: ts =
        .key :: .scalar key (styleOf key = .plain) :: .value ::
          (v.tokens ++ (entryTokens outlines ++ .closeBlock :: ts)) := by
      simp [entryTokens]
    rw [hkeys, entryNodes]
    exact readKeys_cons (readUnless_of_read (by simp [stops]) read_scalar) hunless
      (ih (fun e he => hvalues e (List.mem_cons_of_mem _ he)) (by omega))

/-- **The tokens of a document are read** as its node. -/
theorem readsAs_of_isSound {v : Outline} {depth : Nat} (hv : v.IsSound depth) : ReadsAs v := by
  induction hv with
  | bool value =>
    intro handles loose bound ts anchors hbound
    obtain ⟨bound, rfl⟩ : ∃ k, bound = k + 1 :=
      ⟨bound - 1, by simp [Outline.tokens] at hbound; omega⟩
    exact read_scalar
  | text h =>
    intro handles loose bound ts anchors hbound
    obtain ⟨bound, rfl⟩ : ∃ k, bound = k + 1 :=
      ⟨bound - 1, by simp [Outline.tokens] at hbound; omega⟩
    exact read_scalar
  | @mapping depth entries hkeys hdistinct hvalues ih =>
    intro handles loose bound ts anchors hbound
    by_cases hne : entries = []
    · subst hne
      obtain ⟨bound, rfl⟩ : ∃ k, bound = k + 2 :=
        ⟨bound - 2, by simp [Outline.tokens] at hbound; omega⟩
      exact read_empty
    · obtain ⟨e, rest, rfl⟩ := List.exists_cons_of_ne_nil hne
      rw [Outline.tokens] at hbound ⊢
      · rw [List.length_cons, List.length_append, List.length_singleton] at hbound
        obtain ⟨bound, rfl⟩ : ∃ k, bound = k + 1 := ⟨bound - 1, by omega⟩
        rw [List.cons_append, List.append_assoc]
        exact read_mapping (readKeys_entries ih (by omega))
      · simp
      · simp

theorem ofTokens?_tokens {entries : List (Text × Outline)} {depth : Nat} (hne : entries ≠ [])
    (h : Outline.IsSound depth (.mapping entries)) :
    ofTokens? (Outline.mapping entries).tokens = some (Outline.mapping entries).node := by
  have hread := readsAs_of_isSound h defaultHandles false
    (3 * ((Outline.mapping entries).tokens.length + 2)) [] [] (by omega)
  rw [List.append_nil] at hread
  obtain ⟨e, entries, rfl⟩ := List.exists_cons_of_ne_nil hne
  rw [ofTokens?]
  generalize 3 * ((Outline.mapping (e :: entries)).tokens.length + 2) = bound at hread
  rw [Outline.tokens] at hread ⊢
  · have hunfold : ∀ ts, readDocument bound ⟨.openBlockMapping :: ts, []⟩ =
        (read defaultHandles true false bound ⟨.openBlockMapping :: ts, []⟩).bind fun x =>
          (if x.2.tokens.dropWhile (· = .documentEnd) = [] then pure x.1 else failure : Reader Node)
            { x.2 with tokens := x.2.tokens.dropWhile (· = .documentEnd) } := fun ts => rfl
    rw [StateT.run, hunfold, hread]
    rfl
  · simp
  · simp

end Tokens

mutual

theorem anchored_node (v : Outline) : v.node.anchored = [] := by
  cases v with
  | bool value => rfl
  | text t => rfl
  | mapping entries => exact anchoredEntries_entryNodes entries

theorem anchoredEntries_entryNodes (entries : List (Text × Outline)) :
    anchoredEntries (entryNodes entries) = [] := by
  cases entries with
  | nil => rfl
  | cons e rest =>
    rw [entryNodes, anchoredEntries, anchored_node e.2, anchoredEntries_entryNodes rest]
    rfl

end

end Node

/-! ### Values -/

mutual

/-- The value of a part of a document. -/
def Outline.value : Outline → Yaml
  | .bool value => .scalar (.bool value)
  | .text t => .scalar (.string t)
  | .mapping entries => .mapping (entryValues entries)

/-- The values of the entries of a mapping. -/
def entryValues : List (Text × Outline) → List (Yaml × Yaml)
  | [] => []
  | (key, value) :: rest => (.scalar (.string key), value.value) :: entryValues rest

end

variable {anchored : List (Nat × Node)} {depth jumps : Nat} {t : Text}

theorem Scalar.eq_of_ofPlain {u : Text} (h : Scalar.ofPlain t = .string u) : u = t := by
  rw [ofPlain] at h
  split at h
  · cases h
  split at h
  · cases h
  split at h
  · cases h
  split at h
  · cases h
  · cases h
    rfl

/-- A text that is written plainly means itself. -/
theorem scalarOf?_text (t : Text) : scalarOf? none t (styleOf t = .plain) = some (.string t) := by
  rw [scalarOf?]
  split
  · next hplain =>
    have hunambiguous := (isPlain_of_styleOf (of_decide_eq_true hplain)).unambiguous
    rw [isAmbiguous, Bool.or_eq_false_iff] at hunambiguous
    cases hof : Scalar.ofPlain t with
    | string u =>
      rw [Scalar.eq_of_ofPlain hof]
      rfl
    | _ =>
      rw [hof] at hunambiguous
      cases hunambiguous.2
  · rfl

theorem ofNode_scalar {plain : Bool} {s : Scalar} (h : scalarOf? none t plain = some s) :
    ofNode anchored depth (.scalar {} t plain) jumps = some (.scalar s, jumps) := by
  have hunfold : ofNode anchored depth (.scalar {} t plain) jumps =
      (do return .scalar (← scalarOf? none t plain) : StateT Nat Option Yaml) jumps := by
    delta ofNode
    cases depth <;> rfl
  rw [hunfold, h]
  rfl

theorem ofNode_mapping {nodes : List (Node × Node)} {values : List (Yaml × Yaml)}
    (h : nodes.mapM (fun e => do
      return (← ofNode anchored depth e.1, ← ofNode anchored depth e.2) :
        Node × Node → StateT Nat Option (Yaml × Yaml)) jumps = some (values, jumps))
    (hdistinct : hasDistinctKeys values = true) :
    ofNode anchored (depth + 1) (.mapping {} nodes) jumps = some (.mapping values, jumps) := by
  have hunfold : ofNode anchored (depth + 1) (.mapping {} nodes) jumps =
      (nodes.mapM (fun e => do
        return (← ofNode anchored depth e.1, ← ofNode anchored depth e.2) :
          Node × Node → StateT Nat Option (Yaml × Yaml)) jumps).bind fun x =>
        (if hasDistinctKeys x.1 then pure (.mapping x.1) else failure : StateT Nat Option Yaml)
          x.2 := by
    delta ofNode
    rfl
  rw [hunfold, h, Option.bind_some]
  exact congrFun (if_pos hdistinct) jumps

theorem mapM_cons_eq_some {α β : Type} {f : α → StateT Nat Option β} {a : α} {as : List α} {b : β}
    {bs : List β} {s s' s'' : Nat} (h : f a s = some (b, s')) (hs : as.mapM f s' = some (bs, s'')) :
    (a :: as).mapM f s = some (b :: bs, s'') := by
  have hunfold : (f a >>= fun b => as.mapM f >>= fun bs => pure (b :: bs)) s =
      (f a s).bind fun x => (as.mapM f x.2).bind fun y => some (x.1 :: y.1, y.2) := rfl
  rw [List.mapM_cons, hunfold, h, Option.bind_some, hs]
  rfl

theorem same_text (a b : Text) : same (.scalar (.string a)) (.scalar (.string b)) = decide (a = b) := by
  simp [same]

theorem hasDistinctKeys_entryValues {entries : List (Text × Outline)}
    (h : (entries.map Prod.fst).Nodup) : hasDistinctKeys (entryValues entries) = true := by
  induction entries with
  | nil => rfl
  | cons e rest ih =>
    obtain ⟨key, v⟩ := e
    rw [List.map_cons, List.nodup_cons] at h
    have hany : ∀ es : List (Text × Outline), key ∉ es.map Prod.fst →
        ((entryValues es).any fun e => same (.scalar (.string key)) e.1) = false := by
      intro es
      induction es with
      | nil => exact fun _ => rfl
      | cons e es ih =>
        obtain ⟨other, w⟩ := e
        intro hes
        rw [List.map_cons, List.mem_cons, not_or] at hes
        rw [entryValues, List.any_cons, ih hes.2, same_text, Bool.or_false]
        exact decide_eq_false hes.1
    rw [entryValues, hasDistinctKeys, hany rest h.1, ih h.2]
    rfl

/-- **The node of a document has the value** that was written. -/
theorem ofNode_node {v : Outline} {depth : Nat} (hv : v.IsSound depth) {room : Nat}
    (hroom : depth ≤ room) : ofNode anchored room v.node jumps = some (v.value, jumps) := by
  induction hv generalizing room with
  | bool value => cases value <;> exact ofNode_scalar (by decide)
  | text h => exact ofNode_scalar (scalarOf?_text _)
  | @mapping depth entries hkeys hdistinct hvalues ih =>
    obtain ⟨room, rfl⟩ : ∃ k, room = k + 1 := ⟨room - 1, by omega⟩
    refine ofNode_mapping ?_ (hasDistinctKeys_entryValues hdistinct)
    clear hkeys hdistinct hvalues
    induction entries with
    | nil => rfl
    | cons e rest ihrest =>
      obtain ⟨key, v⟩ := e
      have hkey : ofNode anchored room (.scalar {} key (styleOf key = .plain)) jumps =
          some (.scalar (.string key), jumps) := ofNode_scalar (scalarOf?_text key)
      have hvalue : ofNode anchored room v.node jumps = some (v.value, jumps) :=
        ih (key, v) List.mem_cons_self (by omega)
      have hrest := ihrest fun e he => ih e (List.mem_cons_of_mem _ he)
      refine mapM_cons_eq_some ?_ hrest
      have hunfold : (do
          return (← ofNode anchored room (.scalar {} key (styleOf key = .plain)),
            ← ofNode anchored room v.node) : StateT Nat Option (Yaml × Yaml)) jumps =
          (ofNode anchored room (.scalar {} key (styleOf key = .plain)) jumps).bind fun x =>
            (ofNode anchored room v.node x.2).bind fun y => some ((x.1, y.1), y.2) := rfl
      rw [hunfold, hkey, Option.bind_some, hvalue]
      rfl

/-- **A document is read back**: as it was written, or with an empty line before it, or without the
end of its last line. -/
theorem read?_render {entries : List (Text × Outline)} {depth : Nat} {lead tail t : Text}
    (h : Outline.IsSound depth (.mapping entries)) (hdepth : depth ≤ maxDepth) (hne : entries ≠ [])
    (hlead : lead = [] ∨ lead = ['\n']) (htail : tail = [] ∨ tail = ['\n'])
    (ht : t ++ ['\n'] = render entries) :
    read? (lead ++ (t ++ tail)) = some (Outline.mapping entries).value := by
  rw [read?, tokens?_render h hne hlead htail ht]
  simp only [Option.bind_eq_bind, Option.bind_some, Node.ofTokens?_tokens hne h, Node.anchored_node,
    List.reverse_nil, StateT.run, ofNode_node h hdepth]
  rfl

end ActionBundles.Yaml

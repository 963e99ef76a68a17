import ActionBundles.Json.Reader

/-!
# Documents that are written in part

When the medium is full while a document is written, a first part of the document is what is left.
The part of an object is not taken for another document: `eq_of_read?_prefix` says that the only
first part of an object that can be read is one with all of its tokens, and has the same value.
-/

namespace ActionBundles.Json

/-- A token that ends where it seems to end, whatever comes next: no number and no word. -/
def Token.isClosed : Token → Bool
  | .null | .bool _ | .number _ => false
  | _ => true

theorem not_isClosed_wordToken {word : Text} {token : Token} (h : wordToken? word = some token) :
    token.isClosed = false := by
  rw [wordToken?] at h
  split at h
  · cases h; rfl
  split at h
  · cases h; rfl
  split at h
  · cases h; rfl
  · cases h

theorem not_isClosed_numberToken {read : Text} {token : Token}
    (h : numberToken? read = some token) : token.isClosed = false := by
  rw [numberToken?] at h
  split at h
  · cases h; rfl
  · cases h

/-! ### Cutting a part into tokens -/

/-- Cutting goes on from one state, whatever bytes come, or is given up. -/
inductive Proceeds (cut : Bytes → Option (List Token)) : Prop
  | givenUp (h : ∀ more, cut more = none)
  | on (tokens : List Token) (s : Scan)
      (h : ∀ more, cut more = (scan? s more).map (tokens ++ ·))

theorem Proceeds.of_scan {cut : Bytes → Option (List Token)} (s : Scan)
    (h : ∀ more, cut more = scan? s more) : Proceeds cut :=
  .on [] s fun more => by rw [h]; exact Option.map_id'.symm

/-- A byte that ends a number or a word starts what comes next. -/
theorem proceeds_start (word : Option Token) (b : UInt8) : Proceeds fun more => do
    let word ← word
    let next ← start? b
    return word :: next.1.toList ++ (← scan? next.2 more) := by
  cases word with
  | none => exact .givenUp fun _ => rfl
  | some word =>
    cases start? b with
    | none => exact .givenUp fun _ => rfl
    | some next =>
      refine .on (word :: next.1.toList) next.2 fun more => ?_
      cases hmore : scan? next.2 more <;> simp [hmore]

/-- After each byte cutting goes on. -/
theorem proceeds_scan? (s : Scan) (b : UInt8) : Proceeds fun more => scan? s (b :: more) := by
  cases s with
  | between =>
    cases hb : start? b with
    | none => exact .givenUp fun more => by rw [scan?, hb]; rfl
    | some next =>
      refine .on next.1.toList next.2 fun more => ?_
      rw [scan?, hb]
      cases hmore : scan? next.2 more <;> simp [hmore]
  | number read =>
    by_cases hb : isNumberPart (asciiChar b) = true
    · exact .of_scan _ fun more => by rw [scan?, if_pos hb]
    · simp only [scan?, if_neg hb]
      exact proceeds_start _ b
  | word read =>
    by_cases hb : (asciiChar b).isAlphanum = true
    · exact .of_scan _ fun more => by rw [scan?, if_pos hb]
    · simp only [scan?, if_neg hb]
      exact proceeds_start _ b
  | string pieces =>
    by_cases hquote : b = 0x22
    · exact .on [_] .between fun more => by rw [scan?, if_pos hquote]; rfl
    by_cases hslash : b = 0x5C
    · exact .of_scan _ fun more => by rw [scan?, if_neg hquote, if_pos hslash]
    by_cases hcontrol : b < 0x20
    · exact .givenUp fun more => by rw [scan?, if_neg hquote, if_neg hslash, if_pos hcontrol]
    · exact .of_scan _ fun more => by
        rw [scan?, if_neg hquote, if_neg hslash, if_neg hcontrol]
  | escape pieces =>
    by_cases hu : b = 0x75
    · exact .of_scan _ fun more => by rw [scan?, if_pos hu]
    cases hb : shortEscape? b with
    | none => exact .givenUp fun more => by rw [scan?, if_neg hu, hb]
    | some byte => exact .of_scan _ fun more => by rw [scan?, if_neg hu, hb]
  | digits pieces left code =>
    cases hb : hexDigit? (asciiChar b) with
    | none => exact .givenUp fun more => by rw [scan?, hb]
    | some d =>
      by_cases hleft : left ≤ 1
      · exact .of_scan _ fun more => by rw [scan?, hb]; exact if_pos hleft
      · exact .of_scan _ fun more => by rw [scan?, hb]; exact if_neg hleft

/-- Bytes that are cut into tokens of which the last one is closed are cut so whatever follows. -/
theorem scan?_append {s : Scan} {part : Bytes} {tokens : List Token} (rest : Bytes)
    (h : scan? s part = some tokens) (hlast : ∀ t ∈ tokens.getLast?, t.isClosed = true) :
    scan? s (part ++ rest) = (scan? .between rest).map (tokens ++ ·) := by
  induction part generalizing s tokens with
  | nil =>
    cases s with
    | between =>
      cases h
      exact Option.map_id'.symm
    | number read =>
      obtain ⟨token, htoken, rfl⟩ := Option.map_eq_some_iff.1 h
      cases (hlast token rfl).symm.trans (not_isClosed_numberToken htoken)
    | word read =>
      obtain ⟨token, htoken, rfl⟩ := Option.map_eq_some_iff.1 h
      cases (hlast token rfl).symm.trans (not_isClosed_wordToken htoken)
    | string | escape | digits => cases h
  | cons b part ih =>
    cases proceeds_scan? s b with
    | givenUp hnone => cases (hnone part).symm.trans h
    | on first s' hstep =>
      rw [hstep] at h
      obtain ⟨others, hothers, rfl⟩ := Option.map_eq_some_iff.1 h
      have hlast' : ∀ t ∈ others.getLast?, t.isClosed = true := fun t ht =>
        hlast t (by rw [List.getLast?_append, ht]; rfl)
      rw [List.cons_append, hstep, ih hothers hlast', Option.map_map]
      exact congrArg (Option.map · _) (funext fun more => (List.append_assoc first others more).symm)

/-! ### Reading the tokens -/

namespace Reading

/-- Whether an array or an object is open. -/
def isOpen : Reading → Bool
  | .busy (_ :: _) _ => true
  | _ => false

theorem isOpen_put (value : Json) (frame : Frame) (below : List Frame) :
    (put value (frame :: below)).isOpen = true := by
  cases frame <;> rfl

theorem isOpen_begin? {open_ : List Frame} {want : Want} {token : Token} {next : Reading}
    (h : (busy open_ want).isOpen = true) (hbegin : begin? open_ token = some next) :
    next.isOpen = true := by
  cases open_ with
  | nil => cases h
  | cons frame below =>
    unfold begin? at hbegin
    split at hbegin
    case h_6 | h_7 =>
      cases hbegin
      rfl
    case h_8 => cases hbegin
    all_goals
      cases hbegin
      exact isOpen_put _ _ _

/-- While something is open, a token leaves something open, or it is the end of the document. -/
theorem isOpen_step? {reading next : Reading} {token : Token} (h : reading.isOpen = true)
    (hstep : step? reading token = some next) :
    next.isOpen = true ∨ ∃ value, next = .done value ∧ token.isClosed = true := by
  have hput : ∀ value below, token.isClosed = true → (put value below).isOpen = true ∨
      ∃ value', put value below = .done value' ∧ token.isClosed = true :=
    fun value below hclosed => by
      cases below with
      | nil => exact .inr ⟨value, rfl, hclosed⟩
      | cons frame below => exact .inl (isOpen_put value frame below)
  unfold step? at hstep
  split at hstep
  case h_1 | h_3 => exact .inl (isOpen_begin? h hstep)
  case h_2 | h_4 | h_9 | h_11 =>
    cases hstep
    exact hput _ _ rfl
  case h_7 open_ =>
    cases hstep
    cases open_ with
    | nil => cases h
    | cons frame below => exact .inl rfl
  case h_12 => cases hstep
  all_goals
    cases hstep
    exact .inl rfl

/-- A document that is done ends with a closed token if something was open before. -/
theorem isClosed_of_done {tokens : List Token} {reading : Reading} {value : Json}
    (h : reading.isOpen = true) (hdone : tokens.foldlM step? reading = some (.done value)) :
    ∀ t ∈ tokens.getLast?, t.isClosed = true := by
  induction tokens generalizing reading with
  | nil =>
    cases hdone
    cases h
  | cons token tokens ih =>
    rw [List.foldlM_cons] at hdone
    obtain ⟨next, hstep, hdone⟩ := Option.bind_eq_some_iff.1 hdone
    rcases isOpen_step? h hstep with hopen | ⟨value', rfl, hclosed⟩
    · cases tokens with
      | nil =>
        cases hdone
        cases hopen
      | cons token' tokens => exact ih hopen hdone
    · cases tokens with
      | nil =>
        rintro t ⟨⟩
        exact hclosed
      | cons token' tokens => cases hdone

end Reading

theorem ofTokens?_eq_some {tokens : List Token} {value : Json} :
    ofTokens? tokens = some value ↔
      tokens.foldlM Reading.step? (.busy [] .value) = some (.done value) := by
  rw [ofTokens?]
  split
  · next h => simp [h]
  · next hne => exact iff_of_false (by simp) (hne value)

/-- **A first part of an object** that can be read has the value of the whole. -/
theorem eq_of_read?_prefix {part bytes : Bytes} {value whole : Json} (hpart : part <+: bytes)
    (hobject : bytes.head? = some 0x7B) (hread : read? part = some value)
    (hwhole : read? bytes = some whole) : value = whole := by
  have hbrace : ∀ more, read? (0x7B :: more) = (scan? .between more).bind fun tokens =>
      ofTokens? (.openObject :: tokens) := fun more => by
    have htokens : tokens? (0x7B :: more) =
        (scan? .between more).map ([Token.openObject] ++ ·) := by
      rw [tokens?, scan?, show start? 0x7B = some (some .openObject, .between) from rfl]
      cases hmore : scan? .between more <;> simp [hmore]
    rw [read?, htokens, Option.bind_map]
    rfl
  have hfold : ∀ {tokens : List Token} {value : Json},
      ofTokens? (.openObject :: tokens) = some value ↔
        tokens.foldlM Reading.step? (.busy [.object [] none] .firstKey) = some (.done value) :=
    ofTokens?_eq_some
  obtain ⟨rest, rfl⟩ := hpart
  cases part with
  | nil => cases hread
  | cons b part =>
    obtain rfl : b = 0x7B := Option.some.inj hobject
    rw [hbrace] at hread
    rw [List.cons_append, hbrace] at hwhole
    obtain ⟨tokens, hscan, hdone⟩ := Option.bind_eq_some_iff.1 hread
    rw [hfold] at hdone
    rw [scan?_append rest hscan (Reading.isClosed_of_done rfl hdone)] at hwhole
    obtain ⟨all, hall, hwhole⟩ := Option.bind_eq_some_iff.1 hwhole
    obtain ⟨more, -, rfl⟩ := Option.map_eq_some_iff.1 hall
    rw [hfold, List.foldlM_append, hdone] at hwhole
    cases more with
    | nil =>
      cases hwhole
      rfl
    | cons token more => cases hwhole

end ActionBundles.Json

import ActionBundles.Proofs.Attempts
import ActionBundles.Proofs.GuardedTransactions
import ActionBundles.Proofs.Texts

/-!
# Where bundles are placed

The directory of a bundle is named by the configuration, the domain and the slug of an action. A
slug is one step of a path, whatever the model says. A domain is one too, unless it comes from the
configuration, which may even name the directory above. `leadsInto_artifact` says that the files of
a bundle are gathered in the directory of the transaction all the same.
-/

namespace ActionBundles

/-! ### Segments -/

namespace Identity

theorem mem_segment {raw : Text} {c : Char} (h : c ∈ segment raw) :
    c.isAlphanum = true ∨ c = '-' := by
  rcases Text.mem_join h with h | ⟨t, ht, hc⟩
  · exact .inr (List.mem_singleton.1 h)
  · have hpiece := Text.mem_of_mem_splitOn (List.mem_filter.1 ht).1 hc
    obtain ⟨b, -, rfl⟩ := List.mem_map.1 hpiece
    rw [segmentChar]
    split
    · next halnum => exact .inl halnum
    · exact .inr rfl

/-- A segment that is not empty is a step of a path. -/
theorem isStep_segment {raw : Text} (h : segment raw ≠ []) : Path.isStep (segment raw) = true := by
  have hdot : '.' ∉ segment raw := fun hc => by
    rcases mem_segment hc with hc | hc <;> revert hc <;> decide
  have hslash : '/' ∉ segment raw := fun hc => by
    rcases mem_segment hc with hc | hc <;> revert hc <;> decide
  refine Path.isStep_iff.2 ⟨h, fun he => hdot ?_, fun he => hdot ?_, hslash⟩
  · simp [he]
  · simp [he]

theorem isStep_of_slugOf? {modelId slug : Text} (h : slugOf? modelId = some slug) :
    Path.isStep slug = true := by
  rw [slugOf?] at h
  split at h
  · cases h
  · next hne =>
    cases h
    exact isStep_segment hne

theorem isStep_of_classify? {slug domain : Text} (h : classify? slug = some domain) :
    Path.isStep domain = true := by
  have hall : ∀ e ∈ domainWords, Path.isStep e.2 = true := by decide
  obtain ⟨e, he, rfl⟩ := Option.map_eq_some_iff.1 h
  exact hall e (List.mem_of_find?_eq_some he)

/-- A domain is a step of a path or the default. -/
theorem domainOf_cases (declared slug default : Text) :
    Path.isStep (domainOf declared slug default) = true ∨
      domainOf declared slug default = default := by
  rw [domainOf]
  split
  · cases h : classify? slug with
    | none => exact .inr rfl
    | some domain => exact .inl (isStep_of_classify? h)
  · next hne => exact .inl (isStep_segment hne)

theorem isStep_resolve (m : Model) (source default : Text) :
    Path.isStep (resolve m source default).slug = true := by
  rw [resolve]
  cases h : (slugOf? m.metadata.modelId).or ((Path.stem? source).bind slugOf?) with
  | none => exact (show Path.isStep fallbackSlug = true by decide)
  | some slug =>
    rcases Option.or_eq_some_iff.1 h with h | ⟨-, h⟩
    · exact isStep_of_slugOf? h
    · obtain ⟨stem, -, h⟩ := Option.bind_eq_some_iff.1 h
      exact isStep_of_slugOf? h

theorem domain_resolve_cases (m : Model) (source default : Text) :
    Path.isStep (resolve m source default).domain = true ∨
      (resolve m source default).domain = default := by
  rw [resolve]
  exact domainOf_cases _ _ _

end Identity

/-! ### Directories of the configuration -/

namespace Config

variable {c : Config} {path : Text}

/-- A path is what is left without the slashes at its end, and these slashes. -/
theorem exists_trimSlashes (path : Text) :
    ∃ k, path = trimSlashes path ++ List.replicate k '/' := by
  have hcut := List.takeWhile_append_dropWhile (p := (· = '/')) (l := path.reverse)
  have hslashes : path.reverse.takeWhile (· = '/') =
      List.replicate (path.reverse.takeWhile (· = '/')).length '/' :=
    List.eq_replicate_iff.2 ⟨rfl, fun c hc => by simpa using List.mem_takeWhile_imp hc⟩
  refine ⟨(path.reverse.takeWhile (· = '/')).length, ?_⟩
  rw [← List.reverse_inj, List.reverse_append, List.reverse_replicate, trimSlashes,
    List.reverse_reverse, ← hslashes]
  exact hcut.symm

theorem steps_trimSlashes (path : Text) : Path.steps (trimSlashes path) = Path.steps path := by
  obtain ⟨k, hk⟩ := exists_trimSlashes path
  have hsteps : ∀ k, Path.steps (trimSlashes path ++ List.replicate k '/') =
      Path.steps (trimSlashes path) := fun k => by
    induction k with
    | zero => simp
    | succ k ih =>
      rw [List.replicate_succ', ← List.append_assoc, Path.steps_append_slash, ih]
      exact List.append_nil _
  exact (hsteps k).symm.trans (congrArg Path.steps hk.symm)

/-- What is known of a path that may be a directory of the project. -/
theorem isInside_iff : isInside path = true ↔
    Text.trim path ≠ [] ∧ Path.isAbsolute path = false ∧
      Component.up ∉ Path.components path := by
  simp [isInside, and_assoc]

theorem dots_not_mem_steps (h : isInside path = true) : ['.', '.'] ∉ Path.steps path := by
  intro hmem
  have hup : Component.up ∈ (path.splitOn '/').filterMap Path.ofPiece? :=
    List.mem_filterMap.2 ⟨['.', '.'], (List.mem_filter.1 hmem).1, rfl⟩
  refine (isInside_iff.1 h).2.2 ?_
  rw [Path.components]
  split
  · exact List.mem_cons_of_mem _ hup
  split
  · exact List.mem_cons_of_mem _ hup
  · exact hup

theorem trimSlashes_ne_nil (h : isInside path = true) :
    trimSlashes path ≠ [] ∧ Path.isAbsolute (trimSlashes path) = false := by
  obtain ⟨htrim, habs, -⟩ := isInside_iff.1 h
  obtain ⟨k, hk⟩ := exists_trimSlashes path
  cases hcut : trimSlashes path with
  | nil =>
    rw [hcut, List.nil_append] at hk
    cases k with
    | zero =>
      subst hk
      exact absurd rfl htrim
    | succ k =>
      rw [hk] at habs
      cases habs
  | cons c rest =>
    rw [hcut, List.cons_append] at hk
    rw [hk] at habs
    exact ⟨by simp, habs⟩

/-- What a usable configuration says of the places of bundles. -/
theorem isInside_of_check (h : c.check = .ok ()) :
    isInside c.actionsDir = true ∧ c.defaultDomain ≠ [] ∧ '/' ∉ c.defaultDomain := by
  rw [check] at h
  obtain ⟨-, -, h⟩ := exists_of_bind_eq_ok h
  obtain ⟨_, hdir, h⟩ := exists_of_bind_eq_ok h
  have hinside : isInside c.actionsDir = true := by
    by_contra hnot
    rw [checkDirectory, if_neg hnot] at hdir
    cases hdir
  dsimp only at h
  by_cases hsame : trimSlashes c.modelsDir = trimSlashes c.actionsDir
  · rw [if_pos hsame] at h
    cases h
  by_cases himage : Text.trim c.defaultImage = []
  · rw [if_neg hsame, if_pos himage] at h
    cases h
  rw [if_neg hsame, if_neg himage] at h
  by_cases hdomain : (Text.trim c.defaultDomain = [] || '/' ∈ c.defaultDomain) = true
  · rw [if_pos hdomain] at h
    cases h
  · simp only [Bool.or_eq_true, decide_eq_true_eq, not_or] at hdomain
    exact ⟨hinside, fun he => hdomain.1 (by rw [he]; rfl), hdomain.2⟩

end Config

/-! ### Ways into a transaction -/

namespace Path

theorem staysBelow_mono {depth : Nat} (k : Nat) {steps : List Text}
    (h : staysBelow depth steps = true) : staysBelow (depth + k) steps = true := by
  induction steps generalizing depth with
  | nil => rfl
  | cons step rest ih =>
    rw [staysBelow] at h ⊢
    split
    · next hdot =>
      rw [if_pos hdot] at h
      exact ih h
    next hdot =>
    rw [if_neg hdot] at h
    split
    · next hdots =>
      rw [if_pos hdots, Bool.and_eq_true, decide_eq_true_eq] at h
      rw [Bool.and_eq_true, decide_eq_true_eq]
      refine ⟨by omega, ?_⟩
      rw [show depth + k - 1 = depth - 1 + k by omega]
      exact ih h.2
    · next hdots =>
      rw [if_neg hdots] at h
      rw [show depth + k + 1 = depth + 1 + k by omega]
      exact ih h

/-- Steps none of which leads up only lead farther down. -/
theorem staysBelow_append {depth : Nat} {down rest : List Text} (hdown : ['.', '.'] ∉ down)
    (h : staysBelow depth rest = true) : staysBelow depth (down ++ rest) = true := by
  induction down generalizing depth with
  | nil => exact h
  | cons step down ih =>
    have hstep : step ≠ ['.', '.'] := fun he => hdown (by simp [he])
    have hdown : ['.', '.'] ∉ down := fun he => hdown (by simp [he])
    rw [List.cons_append, staysBelow, if_neg hstep]
    split
    · exact ih hdown h
    · exact ih hdown (staysBelow_mono 1 h)

theorem staysBelow_cons {depth : Nat} {n : Text} {rest : List Text} (hn : isStep n = true) :
    staysBelow depth (n :: rest) = staysBelow (depth + 1) rest := by
  obtain ⟨-, hdot, hdots, -⟩ := isStep_iff.1 hn
  rw [staysBelow, if_neg hdot, if_neg hdots]

end Path

namespace Layout

variable {l : Layout} {domain slug : Text}

/-- The files of a bundle are gathered below the directory of the transaction. -/
theorem leadsInto_artifact {tx : Transaction} {r : Address} {n : Text} (hr : Path.IsWay r)
    (htx : tx.dir = Path.ofAddress r) (hactions : Config.isInside l.actions = true)
    (hdomain : domain ≠ [] ∧ '/' ∉ domain) (hslug : Path.isStep slug = true)
    (hn : n ∈ Transaction.bundleNames) :
    Transaction.LeadsInto r (Path.join tx.stagingDir (l.artifact domain slug ++ '/' :: n)) n := by
  have hstep := (Transaction.ne_of_mem_bundleNames hn).2.2.2
  obtain ⟨hne, habs⟩ := Config.trimSlashes_ne_nil hactions
  have hrel : Path.isAbsolute (l.artifact domain slug ++ '/' :: n) = false := by
    obtain ⟨c, rest, he⟩ := List.exists_cons_of_ne_nil hne
    rw [he] at habs
    rw [artifact, he]
    exact habs
  have hjoin : Path.join tx.stagingDir (l.artifact domain slug ++ '/' :: n) =
      Path.ofAddress (Transaction.stagingAddress r) ++ '/' :: (l.artifact domain slug ++ '/' :: n) := by
    rw [Transaction.stagingDir, htx, Path.join_ofAddress hr (by decide)]
    exact Path.join_relative (by decide) hrel
  have hsteps : Path.steps (l.artifact domain slug ++ '/' :: n) =
      (Path.steps l.actions ++ [domain, slug]) ++ [n] := by
    rw [Path.steps_append_slash, artifact, Path.steps_append_slash, Path.steps_append_slash,
      Config.steps_trimSlashes, Path.steps_of_slash_not_mem hdomain.1 hdomain.2,
      Path.steps_of_isStep hslug, Path.steps_of_isStep hstep]
    rfl
  refine ⟨by rw [hjoin]; rfl, hn, "staging".toList :: (Path.steps l.actions ++ [domain, slug]), ?_, ?_⟩
  · rw [hjoin, Path.steps_append_slash,
      Path.steps_ofAddress (Transaction.isWay_stagingAddress hr), hsteps,
      Transaction.stagingAddress, List.reverse_cons]
    simp
  · rw [List.cons_append, Path.staysBelow_cons (by decide), List.append_assoc]
    refine Path.staysBelow_append (Config.dots_not_mem_steps hactions) ?_
    show Path.staysBelow 1 [domain, slug, n] = true
    rw [Path.staysBelow]
    have hend : ∀ depth, Path.staysBelow depth [slug, n] = true := fun depth => by
      rw [Path.staysBelow_cons hslug, Path.staysBelow_cons hstep]
      rfl
    split
    · exact hend _
    split
    · simpa using hend 0
    · exact hend _

end Layout

end ActionBundles

import ActionBundles.Proofs.Provenance
import ActionBundles.Proofs.ReadDocuments
import ActionBundles.Validation.Schema

/-!
# Written descriptors have no problem

What the checks read of a descriptor is the document that was written below its header, between an
empty line and the end of its last line. It is read back as it was written, so it has a name and
says what it runs with: no descriptor of a model that was read has a problem
(`Descriptor.problem?_render`).
-/

namespace ActionBundles.Descriptor

open Yaml

variable {m : Model} {identity : Identity} {source : Text}

/-- The document of a descriptor has a name and says what it runs with. -/
theorem valueProblem?_outline (d : Descriptor) :
    valueProblem? (some (Outline.mapping d.outline).value) = none := rfl

/-- What the checks read of a descriptor is its document. -/
theorem read?_withoutComments (hm : m.IsLinear) (hslug : '\n' ∉ identity.slug)
    (htitle : '\n' ∉ identity.title) (hsource : '\n' ∉ source) :
    Yaml.read? (withoutComments (render m identity source)) =
      some (Outline.mapping (ofModel m identity).outline).value := by
  have hsound : Outline.IsSound 3 (.mapping (ofModel m identity).outline) :=
    isSound_outline hm htitle
  have hne : (ofModel m identity).outline ≠ [] := List.cons_ne_nil _ _
  obtain ⟨t, ht⟩ := exists_eq_render hsound hne
  have hdrop : ('\n' :: body m identity).dropLast = ['\n'] ++ (t ++ []) := by
    rw [body, ← ht, ← List.cons_append, List.dropLast_concat, List.append_nil, List.singleton_append]
  rw [withoutComments_render hm hslug htitle hsource, hdrop]
  exact read?_render hsound (by decide) hne (.inr rfl) (.inl rfl) ht

/-- **A descriptor that was written has no problem.** -/
theorem problem?_render (hm : m.IsLinear) (hslug : '\n' ∉ identity.slug)
    (htitle : '\n' ∉ identity.title) (hsource : '\n' ∉ source) :
    problem? (render m identity source) = none := by
  rw [problem?, read?_withoutComments hm hslug htitle hsource, valueProblem?_outline]

end ActionBundles.Descriptor

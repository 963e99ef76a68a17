import ActionBundles.Bundle.Descriptor
import ActionBundles.Bundle.Dockerfile
import ActionBundles.Bundle.Entrypoint
import ActionBundles.Bundle.SyncRecord
import ActionBundles.Digest.Sha256

/-!
# Bundles

A bundle is everything that is generated for one action: its descriptor, its build file, its entry
point and its sync record.
-/

namespace ActionBundles

/-- The generated parts of an action. -/
structure Bundle where
  descriptor : Text
  dockerfile : Text
  entrypoint : Text
  sync : SyncRecord
  deriving DecidableEq

namespace Bundle

/-- The name of the file of the descriptor. -/
def descriptorName : Text := "action.yml"

/-- The name of the build file. -/
def dockerfileName : Text := "Dockerfile"

/-- The name of the file of the entry point. -/
def entrypointName : Text := "entrypoint.sh"

/-- The bundle of a model that the file `source` holds with the bytes `bytes`. -/
def render (m : Model) (identity : Identity) (source : Text) (bytes : Bytes)
    (generatedAt defaultImage : Text) : Bundle where
  descriptor := Descriptor.render m identity source
  dockerfile := Dockerfile.render m defaultImage source
  entrypoint := Entrypoint.render m identity source
  sync :=
    { source
      generated := generatedAt
      version := Text.trim m.metadata.version
      checksum := Sha256.checksum bytes }

end Bundle

end ActionBundles

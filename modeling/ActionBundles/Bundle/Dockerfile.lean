import ActionBundles.Model.Basic

/-!
# Container build files

The build file of an action starts from an image, installs the packages that the model requires, as
far as they are known, and sets the entry point.
-/

namespace ActionBundles.Dockerfile

/-- The packages that can be installed, in the order of installation. A requirement asks for the
package of its name. -/
def knownPackages : List Text := ["git", "curl", "jq", "make"]

/-- The known packages among the requirements of a model. -/
def packages (m : Model) : List Text :=
  match m.interface.get? "requirements" with
  | none => []
  | some value =>
    let requested := value.items.map fun item => Text.asciiLower (Text.trim item)
    knownPackages.filter (· ∈ requested)

/-- The step that installs packages, in the way of the image's system. -/
def installStep (image : Text) (packages : List Text) : Text :=
  let list := Text.join [' '] packages
  if Text.includes "alpine" (Text.asciiLower image) then "RUN apk add --no-cache " ++ list ++ "\n"
  else
    "RUN apt-get update \\\n    && apt-get install -y --no-install-recommends " ++ list ++
      " \\\n    && rm -rf /var/lib/apt/lists/*\n"

/-- The build file of a model's action. -/
def render (m : Model) (defaultImage source : Text) : Text :=
  let image := (m.interfaceText? "image").getD defaultImage
  let install := match packages m with
    | [] => []
    | packages => installStep image packages ++ ['\n']
  "# Generated from " ++ source ++ " - DO NOT EDIT\nFROM " ++ image ++ "\n\n" ++ install ++
    "COPY entrypoint.sh /entrypoint.sh\nRUN chmod +x /entrypoint.sh\n\n" ++
    "ENTRYPOINT [\"/entrypoint.sh\"]\n"

end ActionBundles.Dockerfile

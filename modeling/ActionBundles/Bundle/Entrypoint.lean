import ActionBundles.Bundle.Identity
import ActionBundles.Shell.Word

/-!
# Entry points of actions

The entry point of an action is a shell script that says what the action is and hands over to the
command of the action's slug, if it is installed. What comes from the model stands in it as single
words of the shell.
-/

namespace ActionBundles.Entrypoint

/-- The model and its version. -/
def modelText (m : Model) : Text :=
  Text.trimEnd ("Model: " ++ Text.trim m.metadata.modelId ++ ' ' :: Text.trim m.metadata.version)

/-- What is said if the command of a slug is not installed. -/
def notice (slug : Text) : Text :=
  slug ++ ": no implementation installed; provide the " ++ slug ++ " package to run this action"

/-- The lines of the script. -/
def scriptLines (m : Model) (identity : Identity) (source : Text) : List Text :=
  [ "#!/usr/bin/env bash",
    "# Generated from " ++ source ++ " - DO NOT EDIT",
    "set -euo pipefail",
    "",
    "echo " ++ Shell.quote ("Action: " ++ identity.title),
    "echo " ++ Shell.quote (modelText m),
    "echo \"Arguments: $*\"",
    "",
    "if command -v " ++ identity.slug ++ " >/dev/null 2>&1; then",
    "    exec " ++ identity.slug ++ " \"$@\"",
    "fi",
    "",
    "echo " ++ Shell.quote (notice identity.slug) ++ " >&2",
    "exit 0" ]

/-- The script of a model's action. -/
def render (m : Model) (identity : Identity) (source : Text) : Text :=
  (scriptLines m identity source).flatMap (· ++ ['\n'])

end ActionBundles.Entrypoint

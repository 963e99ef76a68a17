import ActionBundles.Text.Basic

/-!
# Words of the shell

`Shell.quote` writes any text so that the shell reads it back as one word. A text without special
characters stands for itself; any other text goes between single quotes, where every character but
the single quote stands for itself.
-/

namespace ActionBundles.Shell

/-- The characters that make quotes necessary. -/
def specials : List Char :=
  ['|', '&', ';', '<', '>', '(', ')', '$', '\x60', '\\', '\"', '\'', ' ', '\t', '\n', '*', '?', '[',
    '#', '\u02dc', '=', '%']

/-- A character within single quotes. A single quote itself stands outside, after a backslash. -/
def quoteChar (c : Char) : Text := if c = '\'' then ['\'', '\\', '\'', '\''] else [c]

/-- A text as one word of the shell. -/
def quote (t : Text) : Text :=
  if t = [] || t.any (· ∈ specials) then '\'' :: (t.flatMap quoteChar ++ ['\'']) else t

end ActionBundles.Shell

import ActionBundles.Proofs.Texts
import ActionBundles.Shell.Word
import Mathlib.Data.List.Forall2

/-!
# What the shell reads

The shell cuts a script into tokens: words, operators and ends of lines. A character of a word is
bare or quoted, and a dollar sign between double quotes asks for a parameter; all quotes are gone
once a word has been read. `Shell.tokens?` follows the rules of POSIX for this, character by
character. It gives up where a script goes beyond them: at an expansion that is more than a
parameter between double quotes, at lines joined by a backslash, and where quotes are left open.

A text that `Shell.quote` has put between quotes is read as a single word of its characters, all of
them quoted (`run_quote`), whatever these are.
-/

namespace ActionBundles.Shell

/-! ### Tokens -/

/-- A character of a word as the shell takes it. -/
inductive Part where
  /-- A character without quotes, which may mean something else than itself. -/
  | bare (c : Char)
  /-- A character that stands for itself. -/
  | quoted (c : Char)
  /-- A parameter, by its sign. -/
  | parameter (c : Char)
  deriving DecidableEq

/-- What a script is made of. -/
inductive Token where
  | word (parts : List Part)
  | operator (signs : Text)
  | lineEnd
  deriving DecidableEq

/-- The word that is written without quotes. -/
def Token.bare (t : Text) : Token := .word (t.map .bare)

/-- The characters that may mean something else than themselves in a word without quotes: patterns,
braces, home directories, assignments, comments, jobs and the history of commands. -/
def signs : List Char := ['*', '?', '[', ']', '\x7b', '\x7d', '~', '=', '#', '%', '!', '^']

/-- The character that a part of a word stands for, unless it may mean something else. -/
def Part.literal? : Part → Option Char
  | .bare c => if c ∈ signs then none else some c
  | .quoted c => some c
  | .parameter _ => none

/-- The text that a word is for the command that gets it, if the shell does nothing to the word but
remove its quotes. -/
def literal? (parts : List Part) : Option Text := parts.mapM Part.literal?

/-! ### Reading them -/

/-- What quotes the next character of a word. -/
inductive Quoting where
  | off
  /-- A backslash before it. -/
  | backslash
  | single
  | double
  /-- A dollar sign between double quotes. -/
  | dollar
  deriving DecidableEq

/-- Where in a script the next character stands. -/
inductive Place where
  | between
  | comment
  | operator (signs : Text)
  | word (parts : List Part) (quoting : Quoting)
  deriving DecidableEq

/-- The characters that operators begin with. -/
def operatorStarts : List Char := ['|', '&', ';', '<', '>', '(', ')']

/-- The operators of more than one character. -/
def operators : List Text :=
  ["&&", "||", ";;", "<<", ">>", "<&", ">&", "<>", "<<-", ">|"]

/-- Whether a character without quotes ends a word. -/
def endsWord (c : Char) : Bool := c = '\n' || c = ' ' || c = '\t' || c ∈ operatorStarts

/-- What comes of a character in a word: the parts that it gives, and what quotes the next one. -/
def Quoting.take : Quoting → Char → Option (List Part × Quoting)
  | .off, c =>
    if c = '\\' then some ([], .backslash)
    else if c = '\'' then some ([], .single)
    else if c = '\"' then some ([], .double)
    else if c = '$' || c = '\x60' then none
    else some ([.bare c], .off)
  | .backslash, c => if c = '\n' then none else some ([.quoted c], .off)
  | .single, c => some (if c = '\'' then ([], .off) else ([.quoted c], .single))
  | .double, c =>
    if c = '\"' then some ([], .off)
    else if c = '$' then some ([], .dollar)
    else if c = '\\' || c = '\x60' then none
    else some ([.quoted c], .double)
  | .dollar, c => if c = '*' || c = '@' then some ([.parameter c], .double) else none

/-- What comes of a character that stands outside of tokens: the tokens that it ends, and where the
next one stands. -/
def start (c : Char) : Option (List Token × Place) :=
  if c = '\n' then some ([.lineEnd], .between)
  else if c = ' ' || c = '\t' then some ([], .between)
  else if c = '#' then some ([], .comment)
  else if c ∈ operatorStarts then some ([], .operator [c])
  else (Quoting.off.take c).map fun taken => ([], .word taken.1 taken.2)

/-- What comes of a character: the tokens that it ends, and where the next one stands. -/
def Place.step : Place → Char → Option (List Token × Place)
  | .between, c => start c
  | .comment, c => some (if c = '\n' then ([.lineEnd], .between) else ([], .comment))
  | .operator signs, c =>
    if signs ++ [c] ∈ operators then some ([], .operator (signs ++ [c]))
    else (start c).map fun begun => (.operator signs :: begun.1, begun.2)
  | .word parts quoting, c =>
    if quoting = .off && endsWord c then
      (start c).map fun begun => (.word parts :: begun.1, begun.2)
    else (quoting.take c).map fun taken => ([], .word (parts ++ taken.1) taken.2)

/-- The token that the end of a script ends. -/
def Place.close? : Place → Option (List Token)
  | .between => some []
  | .comment => some []
  | .operator signs => some [.operator signs]
  | .word parts .off => some [.word parts]
  | .word _ _ => none

/-- What comes of a part of a script: the tokens that end in it, and where the next character
stands. -/
def run : Place → Text → Option (List Token × Place)
  | place, [] => some ([], place)
  | place, c :: rest => (place.step c).bind fun s => (run s.2 rest).map fun e => (s.1 ++ e.1, e.2)

/-- The tokens of a script. -/
def tokens? (script : Text) : Option (List Token) :=
  (run .between script).bind fun e => e.2.close?.map (e.1 ++ ·)

variable {place middle next : Place} {c : Char} {t rest : Text} {parts : List Part}
  {ts us : List Token}

theorem run_append (h : run place t = some (ts, middle)) (hrest : run middle rest = some (us, next)) :
    run place (t ++ rest) = some (ts ++ us, next) := by
  induction t generalizing place ts with
  | nil =>
    cases h
    exact hrest
  | cons c t ih =>
    obtain ⟨⟨begun, after⟩, hstep, hrun⟩ := Option.bind_eq_some_iff.1 h
    obtain ⟨⟨more, last⟩, hmore, he⟩ := Option.map_eq_some_iff.1 hrun
    obtain ⟨rfl, rfl⟩ := Prod.mk.inj he
    rw [List.cons_append, run, hstep, Option.bind_some, ih hmore, Option.map_some,
      List.append_assoc]

/-- A character that ends no token. -/
theorem run_cons (h : place.step c = some ([], middle)) (hrest : run middle t = some (ts, next)) :
    run place (c :: t) = some (ts, next) := by
  rw [run, h, Option.bind_some, hrest]
  rfl

/-! ### Words -/

/-- Within single quotes, what is written for a character is read as that character. -/
theorem run_quoteChar (parts : List Part) (c : Char) :
    run (.word parts .single) (quoteChar c) = some ([], .word (parts ++ [.quoted c]) .single) := by
  by_cases hc : c = '\''
  · -- the quotes are closed, the character stands after a backslash, and they are opened again
    subst hc
    have hclose : (Place.word parts .single).step '\'' = some ([], .word parts .off) := by
      simp [Place.step, Quoting.take]
    have hbackslash : (Place.word parts .off).step '\\' = some ([], .word parts .backslash) := by
      simp [Place.step, Quoting.take, endsWord, operatorStarts]
    have hquote : (Place.word parts .backslash).step '\'' =
        some ([], .word (parts ++ [.quoted '\'']) .off) := by
      simp [Place.step, Quoting.take]
    have hopen : (Place.word (parts ++ [.quoted '\'']) .off).step '\'' =
        some ([], .word (parts ++ [.quoted '\'']) .single) := by
      simp [Place.step, Quoting.take, endsWord, operatorStarts]
    exact run_cons hclose (run_cons hbackslash (run_cons hquote (run_cons hopen rfl)))
  · rw [quoteChar, if_neg hc]
    exact run_cons (by simp [Place.step, Quoting.take, hc]) rfl

theorem run_quoteChars (parts : List Part) (t : Text) :
    run (.word parts .single) (t.flatMap quoteChar) =
      some ([], .word (parts ++ t.map .quoted) .single) := by
  induction t generalizing parts with
  | nil => simp [run]
  | cons c t ih =>
    have hrest := ih (parts ++ [.quoted c])
    rw [List.append_assoc] at hrest
    exact run_append (run_quoteChar parts c) hrest

/-- **A text that was quoted** is read as one word of its characters. -/
theorem run_quote (h : t.any (· ∈ specials) = true) :
    run .between (quote t) = some ([], .word (t.map .quoted) .off) := by
  have hopen : Place.between.step '\'' = some ([], .word [] .single) := by decide
  have hclose : run (.word (t.map .quoted) .single) ['\''] =
      some ([], .word (t.map .quoted) .off) :=
    run_cons (by simp [Place.step, Quoting.take]) rfl
  rw [quote, if_pos (by simp [h])]
  exact run_cons hopen (run_append (run_quoteChars [] t) hclose)

/-- The characters that quote what follows or are replaced in a word without quotes. -/
def quoteStarts : List Char := ['\\', '\'', '\"', '$', '\x60']

/-- A character that is part of a word without quotes. -/
def IsBare (c : Char) : Prop := endsWord c = false ∧ c ∉ quoteStarts

theorem IsBare.take (h : IsBare c) : Quoting.off.take c = some ([.bare c], .off) := by
  have hquote := h.2
  simp only [quoteStarts, List.mem_cons, List.not_mem_nil, or_false, not_or] at hquote
  obtain ⟨hbackslash, hsingle, hdouble, hdollar, hback⟩ := hquote
  simp [Quoting.take, hbackslash, hsingle, hdouble, hdollar, hback]

/-- A word without quotes goes on. -/
theorem run_bare (h : ∀ c ∈ t, IsBare c) (parts : List Part) :
    run (.word parts .off) t = some ([], .word (parts ++ t.map .bare) .off) := by
  induction t generalizing parts with
  | nil => simp [run]
  | cons c t ih =>
    have hc := h c List.mem_cons_self
    have hstep : (Place.word parts .off).step c = some ([], .word (parts ++ [.bare c]) .off) := by
      simp [Place.step, hc.1, hc.take]
    have hrest := ih (fun d hd => h d (List.mem_cons_of_mem c hd)) (parts ++ [.bare c])
    rw [List.append_assoc] at hrest
    exact run_cons hstep hrest

/-- A word without quotes begins, unless it would be a comment. -/
theorem run_between_bare (h : ∀ c ∈ t, IsBare c) (hne : t ≠ []) (hsign : t.head? ≠ some '#') :
    run .between t = some ([], .word (t.map .bare) .off) := by
  obtain ⟨c, t, rfl⟩ := List.exists_cons_of_ne_nil hne
  have hc := h c List.mem_cons_self
  obtain ⟨⟨⟨hfeed, hspace⟩, htab⟩, hoperator⟩ : ((c ≠ '\n' ∧ c ≠ ' ') ∧ c ≠ '\t') ∧
      c ∉ operatorStarts := by
    simpa [endsWord] using hc.1
  have hsign : c ≠ '#' := fun he => hsign (by rw [he, List.head?_cons])
  have hstep : Place.between.step c = some ([], .word [.bare c] .off) := by
    simp [Place.step, start, hfeed, hspace, htab, hsign, hoperator, hc.take]
  exact run_cons hstep (run_bare (fun d hd => h d (List.mem_cons_of_mem c hd)) [.bare c])

theorem literal?_quoted (t : Text) : literal? (t.map .quoted) = some t := by
  induction t with
  | nil => rfl
  | cons c t ih =>
    rw [List.map_cons, literal?, List.mapM_cons, ← literal?, ih]
    rfl

/-! ### Lines -/

/-- A line that is read as some tokens. -/
abbrev IsLine (line : Text) (ts : List Token) : Prop :=
  run .between (line ++ ['\n']) = some (ts, .between)

/-- The end of the word that a line ends with. -/
theorem run_lineEnd (parts : List Part) :
    run (.word parts .off) ['\n'] = some ([.word parts, .lineEnd], .between) := rfl

/-- A script is read line by line. -/
theorem tokens?_unlines {lines : List Text} {tokens : List (List Token)}
    (h : List.Forall₂ IsLine lines tokens) : tokens? (Text.unlines lines) = some tokens.flatten := by
  have hrun : run .between (Text.unlines lines) = some (tokens.flatten, .between) := by
    induction h with
    | nil => rfl
    | cons hline _ ih => exact run_append hline ih
  rw [tokens?, hrun, Option.bind_some]
  simp [Place.close?]

end ActionBundles.Shell

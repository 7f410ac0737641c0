import CardSort.Text

/-!
# Tokens of control cards

An operand such as `FIELDS=(1,5,CH,A)` is a sequence of words, quoted literals, parentheses and
semicolons. Blanks and commas only separate words, so `1,5,CH` and `1 5 CH` are the same tokens.

* `Token.render` writes a token as it stands on a card; a quote inside a literal is doubled.
* `Lexeme.read` finds the first token of a text that begins with none of the separators.
* `Lexeme.read_eq_token` says that a token read is a rendered token in front of the rest.
-/

set_option autoImplicit false

namespace CardSort.Card

/-- One token of a control card. -/
inductive Token where
  /-- A run of characters outside quotes, such as `FIELDS=`, `12`, `5C` or `9:6`. -/
  | word (text : String)
  /-- The contents of a quoted literal. -/
  | literal (text : String)
  | openParen
  | closeParen
  | semicolon
deriving DecidableEq, Repr

/-- The quote character. -/
def quote : Char := '\x27'

/-- Characters that only separate tokens. -/
def isSeparator (c : Char) : Bool :=
  c = ' ' || c = '\t' || c = '\r' || c = '\n' || c = ','

/-- Characters at which a word ends. -/
def endsWord (c : Char) : Bool :=
  isSeparator c || c = '(' || c = ')' || c = ';' || c = quote

/-! ## Writing tokens -/

/-- The characters of a literal with every quote doubled. -/
def doubleQuotes : List Char → List Char
  | [] => []
  | c :: cs => if c = quote then quote :: quote :: doubleQuotes cs else c :: doubleQuotes cs

/-- A token as it stands on a card. -/
def Token.render : Token → List Char
  | .word text => text.toList
  | .literal text => quote :: (doubleQuotes text.toList ++ [quote])
  | .openParen => ['(']
  | .closeParen => [')']
  | .semicolon => [';']

/-- The number of bytes that a token takes on a card. -/
def Token.width (t : Token) : Nat := Text.byteLength t.render

/-- How messages name an expected token. -/
def Token.describe : Token → String
  | .word text => "'" ++ text ++ "'"
  | .literal _ => "a quoted literal"
  | .openParen => "'('"
  | .closeParen => "')'"
  | .semicolon => "';'"

/-! ## Reading tokens -/

/-- The literal whose opening quote has been read, and the text after its closing quote. -/
def closeLiteral : List Char → Option (List Char × List Char)
  | [] => none
  | [c] => if c = quote then some ([], []) else none
  | c :: d :: rest =>
    if c = quote then
      if d = quote then (closeLiteral rest).map fun (text, more) => (quote :: text, more)
      else some ([], d :: rest)
    else (closeLiteral (d :: rest)).map fun (text, more) => (c :: text, more)

/-- What stands at the front of a text. -/
inductive Lexeme where
  /-- Nothing: the text is empty. -/
  | finished
  /-- A literal without its closing quote. -/
  | unclosed
  /-- A token, and the text after it. -/
  | token (token : Token) (rest : List Char)
deriving DecidableEq, Repr

/-- The first token of a text that begins with none of the separators. -/
def Lexeme.read : List Char → Lexeme
  | [] => .finished
  | c :: rest =>
    if c = '(' then .token .openParen rest
    else if c = ')' then .token .closeParen rest
    else if c = ';' then .token .semicolon rest
    else if c = quote then
      match closeLiteral rest with
      | some (text, more) => .token (.literal (String.ofList text)) more
      | none => .unclosed
    else
      .token (.word (String.ofList ((c :: rest).takeWhile (! endsWord ·))))
        ((c :: rest).dropWhile (! endsWord ·))

theorem closeLiteral_eq_some {cs text more : List Char}
    (h : closeLiteral cs = some (text, more)) : cs = doubleQuotes text ++ quote :: more := by
  fun_induction closeLiteral cs generalizing text more with
  | case1 => cases h
  | case2 => cases h; simp [doubleQuotes, *]
  | case3 => cases h
  | case4 rest ih =>
    obtain ⟨⟨t, m⟩, ht, he⟩ := Option.map_eq_some_iff.1 h
    cases he
    simp [doubleQuotes, ih ht]
  | case5 => cases h; simp [doubleQuotes, *]
  | case6 c d rest hc ih =>
    obtain ⟨⟨t, m⟩, ht, he⟩ := Option.map_eq_some_iff.1 h
    cases he
    simp [doubleQuotes, hc, ih ht]

/-- **A token read is a rendered token**: the text is the token followed by the rest. -/
theorem Lexeme.read_eq_token {cs rest : List Char} {t : Token}
    (h : Lexeme.read cs = .token t rest) : cs = t.render ++ rest := by
  unfold Lexeme.read at h
  split at h
  · cases h
  · split at h
    · cases h; simp_all [Token.render]
    split at h
    · cases h; simp_all [Token.render]
    split at h
    · cases h; simp_all [Token.render]
    split at h
    · split at h
      · next hl =>
        cases h
        simp_all [Token.render, closeLiteral_eq_some hl]
      · cases h
    · cases h
      simp [Token.render]

end CardSort.Card

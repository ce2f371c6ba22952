import SchemaMock.Malformed

/-! # Cutting a source into tokens

At each position the longest lexeme of the language is taken. Blanks, comments and attributes are
gaps between tokens. Where no lexeme fits, the fault shows the text that began one.
-/

namespace SchemaMock.Token

inductive Lexeme where
  | token (kind : TokenKind)
  | gap
  | bad
deriving DecidableEq, Repr

/-- The characters that a lexeme takes after its first one, and those that follow it. -/
structure Cut where
  lexeme : Lexeme
  taken : List Char
  rest : List Char

def isIdentStart (c : Char) : Bool := c.isAlpha || c == '_' || c == '$'

def isIdentChar (c : Char) : Bool := c.isAlphanum || c == '_' || c == '$'

def isAttributeStart (c : Char) : Bool := c.isAlpha || c == '_'

def isAttributeChar (c : Char) : Bool := c.isAlphanum || c == '_'

def isGap (c : Char) : Bool := c == ' ' || c == '\t' || c == '\r' || c == '\x0c'

def run (lexeme : Lexeme) (p : Char → Bool) (cs : List Char) : Cut :=
  ⟨lexeme, cs.takeWhile p, cs.dropWhile p⟩

def Cut.after (c : Cut) (front : List Char) : Cut := { c with taken := front ++ c.taken }

def word (name : List Char) : TokenKind :=
  if name = "package".toList then .packageWord
  else if name = "import".toList then .importWord
  else if name = "true".toList then .trueWord
  else if name = "false".toList then .falseWord
  else if name = "null".toList then .nullWord
  else .ident

/-- The rest of a string after its opening quote; a backslash takes the character after it along. -/
def stringTail : List Char → Cut
  | [] => ⟨.bad, [], []⟩
  | '"' :: cs => ⟨.token .string, ['"'], cs⟩
  | ['\\'] => ⟨.bad, [], ['\\']⟩
  | '\\' :: c :: cs =>
    if c = '\n' then ⟨.bad, [], '\\' :: c :: cs⟩ else (stringTail cs).after ['\\', c]
  | c :: cs => if c = '\n' then ⟨.bad, [], c :: cs⟩ else (stringTail cs).after [c]

/-- The rest of an attribute after its sign: a name and text in parentheses on one line. -/
def attributeTail (cs : List Char) : Cut :=
  match cs with
  | [] => ⟨.bad, [], cs⟩
  | c :: _ =>
    if isAttributeStart c then
      let name := cs.takeWhile isAttributeChar
      match cs.dropWhile isAttributeChar with
      | '(' :: cs =>
        let body := cs.takeWhile fun c => c != ')' && c != '\n'
        match cs.dropWhile fun c => c != ')' && c != '\n' with
        | ')' :: cs => ⟨.gap, name ++ '(' :: body ++ [')'], cs⟩
        | cs => ⟨.bad, name ++ '(' :: body, cs⟩
      | cs => ⟨.bad, name, cs⟩
    else ⟨.bad, [], cs⟩

def signTail : List Char → List Char × List Char
  | '+' :: cs => (['+'], cs)
  | '-' :: cs => (['-'], cs)
  | cs => ([], cs)

/-- An exponent with its mark, or nothing, and what follows. -/
def exponentTail : List Char → List Char × List Char
  | [] => ([], [])
  | e :: cs =>
    if (e = 'e' ∨ e = 'E') ∧ ((signTail cs).2.takeWhile Char.isDigit).isEmpty = false then
      (e :: (signTail cs).1 ++ (signTail cs).2.takeWhile Char.isDigit,
        (signTail cs).2.dropWhile Char.isDigit)
    else ([], e :: cs)

/-- The rest of a number after its first digit. Underscores stand in integers only. -/
def numberTail (cs : List Char) : Cut :=
  let digits := cs.takeWhile Char.isDigit
  match cs.dropWhile Char.isDigit with
  | '.' :: d :: cs' =>
    if d.isDigit then
      let exp := exponentTail (cs'.dropWhile Char.isDigit)
      ⟨.token .float, digits ++ '.' :: d :: cs'.takeWhile Char.isDigit ++ exp.1, exp.2⟩
    else run (.token .int) (fun c => c.isDigit || c == '_') cs
  | _ => run (.token .int) (fun c => c.isDigit || c == '_') cs

/-- A sign that may be the first half of a longer one. -/
def paired (second : Char) (double single : Lexeme) (cs : List Char) : Cut :=
  match cs with
  | c :: rest => if c = second then ⟨double, [c], rest⟩ else ⟨single, [], cs⟩
  | [] => ⟨single, [], []⟩

/-- The lexeme that begins with `c`. -/
def cut (c : Char) (cs : List Char) : Cut :=
  let single (kind : TokenKind) : Cut := ⟨.token kind, [], cs⟩
  if isGap c then run .gap isGap cs
  else if isIdentStart c then
    match c, cs with
    | '_', '|' :: '_' :: rest => ⟨.token .bottom, ['|', '_'], rest⟩
    | _, _ => run (.token (word (c :: cs.takeWhile isIdentChar))) isIdentChar cs
  else if c.isDigit then numberTail cs
  else match c with
    | '\n' => single .newline
    | '/' =>
      match cs with
      | '/' :: cs' => (run .gap (· != '\n') cs').after ['/']
      | _ => single .slash
    | '@' => attributeTail cs
    | '#' =>
      match cs with
      | d :: _ => if isIdentStart d then run (.token .definition) isIdentChar cs else ⟨.bad, [], cs⟩
      | [] => ⟨.bad, [], cs⟩
    | '"' => stringTail cs
    | '\x7b' => single .openBrace
    | '\x7d' => single .closeBrace
    | '[' => single .openBracket
    | ']' => single .closeBracket
    | '(' => single .openParen
    | ')' => single .closeParen
    | ',' => single .comma
    | ':' => single .colon
    | '?' => single .question
    | '.' =>
      match cs with
      | '.' :: '.' :: rest => ⟨.token .ellipsis, ['.', '.'], rest⟩
      | _ => single .dot
    | '&' => paired '&' (.token .ampAmp) (.token .amp) cs
    | '|' => paired '|' (.token .barBar) (.token .bar) cs
    | '=' => paired '=' (.token .eqEq) .bad cs
    | '!' => paired '=' (.token .notEq) (.token .bang) cs
    | '<' => paired '=' (.token .le) (.token .lt) cs
    | '>' => paired '=' (.token .ge) (.token .gt) cs
    | '+' => single .plus
    | '-' => single .minus
    | '*' => single .star
    | _ => ⟨.bad, [], cs⟩

/-! ## Nothing is lost -/

theorem stringTail_append (cs : List Char) :
    (stringTail cs).taken ++ (stringTail cs).rest = cs := by
  fun_induction stringTail cs <;> simp_all [Cut.after]

theorem takeWhile_append_of_dropWhile {p : Char → Bool} {cs rest : List Char}
    (h : cs.dropWhile p = rest) : cs.takeWhile p ++ rest = cs := by
  rw [← h, List.takeWhile_append_dropWhile]

theorem attributeTail_append (cs : List Char) :
    (attributeTail cs).taken ++ (attributeTail cs).rest = cs := by
  unfold attributeTail
  split
  · rfl
  · split
    · split
      · rename_i hname
        split
        · rename_i hbody
          simp only [List.append_assoc, List.cons_append, List.nil_append]
          rw [takeWhile_append_of_dropWhile hbody, takeWhile_append_of_dropWhile hname]
        · simp only [List.append_assoc, List.cons_append]
          rw [List.takeWhile_append_dropWhile, takeWhile_append_of_dropWhile hname]
      · exact List.takeWhile_append_dropWhile
    · rfl

theorem signTail_append (cs : List Char) : (signTail cs).1 ++ (signTail cs).2 = cs := by
  unfold signTail
  split <;> rfl

theorem exponentTail_append (cs : List Char) : (exponentTail cs).1 ++ (exponentTail cs).2 = cs := by
  unfold exponentTail
  split
  · rfl
  · split
    · simp [List.append_assoc, List.takeWhile_append_dropWhile, signTail_append]
    · rfl

theorem numberTail_append (cs : List Char) :
    (numberTail cs).taken ++ (numberTail cs).rest = cs := by
  unfold numberTail
  split
  · rename_i h
    split
    · simp only [List.append_assoc, List.cons_append]
      rw [exponentTail_append, List.takeWhile_append_dropWhile, takeWhile_append_of_dropWhile h]
    · exact List.takeWhile_append_dropWhile
  · exact List.takeWhile_append_dropWhile

theorem paired_append (second : Char) (double single : Lexeme) (cs : List Char) :
    (paired second double single cs).taken ++ (paired second double single cs).rest = cs := by
  unfold paired
  split
  · split <;> simp
  · rfl

/-- A lexeme and what follows it are the text it was cut from. -/
theorem cut_append (c : Char) (cs : List Char) : (cut c cs).taken ++ (cut c cs).rest = cs := by
  have hw (l : Lexeme) (p : Char → Bool) (cs : List Char) :
      (run l p cs).taken ++ (run l p cs).rest = cs := List.takeWhile_append_dropWhile
  unfold cut
  dsimp only
  split
  · exact hw ..
  · split
    · split
      · rfl
      · exact hw ..
    · split
      · exact numberTail_append cs
      · split <;> first
          | rfl
          | exact stringTail_append cs
          | exact attributeTail_append cs
          | exact paired_append ..
          | (split <;> first
              | rfl
              | (simpa [Cut.after] using hw _ _ _)
              | (split <;> first | rfl | exact hw ..))

theorem cut_rest_length_le (c : Char) (cs : List Char) : (cut c cs).rest.length ≤ cs.length := by
  have h := congrArg List.length (cut_append c cs)
  simp only [List.length_append] at h
  omega

/-! ## The whole source -/

def byteLength (cs : List Char) : Nat := cs.foldl (fun n c => n + c.utf8Size) 0

/-- The tokens of `cs`, which begins at byte `pos`; the last one marks the end. -/
def tokenizeFrom (pos : Nat) (cs : List Char) : Except Malformed (List Token) :=
  match cs with
  | [] => .ok [⟨.eof, ⟨pos, pos⟩, []⟩]
  | c :: cs =>
    let piece := cut c cs
    let text := c :: piece.taken
    let stop := pos + byteLength text
    match piece.lexeme with
    | .bad => .error ⟨⟨pos, stop⟩, .unexpectedText (String.ofList text)⟩
    | .gap => tokenizeFrom stop piece.rest
    | .token kind => do
      let tokens ← tokenizeFrom stop piece.rest
      return ⟨kind, ⟨pos, stop⟩, text⟩ :: tokens
termination_by cs.length
decreasing_by all_goals exact Nat.lt_succ_of_le (cut_rest_length_le c cs)

def tokenize (source : String) : Except Malformed (List Token) := tokenizeFrom 0 source.toList

end SchemaMock.Token

import SchemaMock.Proofs.Expr.Literal
import SchemaMock.Proofs.Expr.Precedence
import SchemaMock.Proofs.Token.Coverage

/-! # Writing a text as a literal

Every text can be written as a literal: backslashes, quotes and newlines are escaped, all other
characters stand for themselves. The lexer cuts the literal out whole, and its value is the text.
-/

namespace SchemaMock

namespace Literal

def escape (c : Char) : List Char :=
  if c = '\\' then ['\\', '\\']
  else if c = '"' then ['\\', '"']
  else if c = '\n' then ['\\', 'n']
  else [c]

def quote (s : String) : String := String.ofList ('"' :: s.toList.flatMap escape ++ ['"'])

theorem toList_quote (s : String) : (quote s).toList = '"' :: s.toList.flatMap escape ++ ['"'] :=
  String.toList_ofList

theorem escape_plain {c : Char} (hslash : c ≠ '\\') (hquote : c ≠ '"') (hnewline : c ≠ '\n') :
    escape c = [c] := by
  rw [escape, if_neg hslash, if_neg hquote, if_neg hnewline]

/-- The characters by how they are written. -/
theorem escape_cases (c : Char) : (c ≠ '\\' ∧ c ≠ '"' ∧ c ≠ '\n' ∧ escape c = [c]) ∨
    ∃ e, escape c = ['\\', e] ∧ escaped? e = some c ∧ e ≠ '\n' := by
  by_cases hslash : c = '\\'
  · exact .inr ⟨'\\', by rw [hslash]; rfl, by rw [hslash]; rfl, by decide⟩
  by_cases hquote : c = '"'
  · exact .inr ⟨'"', by rw [hquote]; rfl, by rw [hquote]; rfl, by decide⟩
  by_cases hnewline : c = '\n'
  · exact .inr ⟨'n', by rw [hnewline]; rfl, by rw [hnewline]; rfl, by decide⟩
  exact .inl ⟨hslash, hquote, hnewline, escape_plain hslash hquote hnewline⟩

/-- What is written spells the text. -/
theorem spells_escape (cs : List Char) : Spells (cs.flatMap escape) cs := by
  induction cs with
  | nil => exact .nil
  | cons c cs ih =>
    rw [List.flatMap_cons]
    obtain ⟨hslash, -, -, hc⟩ | ⟨e, hc, he, -⟩ := escape_cases c
    · rw [hc]
      exact .plain hslash ih
    · rw [hc]
      exact .escape he ih

theorem stringBody_escape (cs : List Char) : Token.StringBody (cs.flatMap escape) := by
  induction cs with
  | nil => exact .nil
  | cons c cs ih =>
    rw [List.flatMap_cons]
    obtain ⟨hslash, hquote, hnewline, hc⟩ | ⟨e, hc, -, he⟩ := escape_cases c
    · rw [hc]
      exact .plain hquote hslash hnewline ih
    · rw [hc]
      exact .escape he ih

theorem unquote_quote (s : String) : unquote (quote s).toList = .ok s := by
  rw [toList_quote]
  exact unquote_eq_ok_iff.mpr (spells_escape s.toList)

end Literal

theorem Token.tokenize_quote (s : String) : tokenize (Literal.quote s) =
    .ok [⟨.string, ⟨0, (Literal.quote s).utf8ByteSize⟩, (Literal.quote s).toList⟩,
      ⟨.eof, ⟨(Literal.quote s).utf8ByteSize, (Literal.quote s).utf8ByteSize⟩, []⟩] := by
  have hcut : cut '"' (s.toList.flatMap Literal.escape ++ ['"']) =
      ⟨.token .string, s.toList.flatMap Literal.escape ++ ['"'], []⟩ :=
    stringTail_of_body (Literal.stringBody_escape s.toList) []
  rw [tokenize, ← byteLength_toList, Literal.toList_quote, List.cons_append, tokenizeFrom]
  simp only [hcut, Nat.zero_add]
  rw [tokenizeFrom]
  rfl

namespace Parser

open Reader

theorem primary_string {lv : Level} {c : Cursor} {s : String} (hkind : c.current.kind = .string)
    (htext : Literal.unquote c.current.text = .ok s) : primary lv c = .ok (.str s, c.next) := by
  unfold primary
  simp only [current_bind, hkind, htext]
  rfl

theorem wholeExpr_of_unary {c s : Cursor} {x : Expr} (hnewline : c.current.kind ≠ .newline)
    (hread : outermost.unary { c with deepest := 0 } = .ok (x, s)) (hend : s.current.kind = .eof) :
    ∃ t, wholeExpr c = .ok (x, t) := by
  let t : Cursor := { s with deepest := max s.deepest c.deepest }
  have hkind : t.current.kind = .eof := hend
  have hturn : operation (binary outermost 7) 1 x s = .ok (.done x, s) := by
    rw [operation, current_bind, hend]
    rfl
  have hexpr : expr outermost c = .ok (x, t) :=
    subtree_of_ok ((bind_of_ok _ hread).trans (loop_of_done hturn))
  have hskip : skipNewlines t = .ok ((), t) :=
    skipNewlines_of_not (by rw [hkind]; exact TokenKind.noConfusion)
  refine ⟨t.next, ?_⟩
  rw [wholeExpr, bind_of_ok _ (skipNewlines_of_not hnewline), bind_of_ok _ hexpr,
    bind_of_ok _ hskip, bind_of_ok _ (expect_of_kind hkind)]
  rfl

end Parser

/-- A literal by itself is read as its value. -/
theorem Expr.parse_of_literal {source value : String} {text : List Char} {span last : Span}
    (htokens : Token.tokenize source = .ok [⟨.string, span, text⟩, ⟨.eof, last, []⟩])
    (htext : Literal.unquote text = .ok value) : Expr.parse source = .ok (.str value) := by
  let start : Cursor := ⟨⟨.string, span, text⟩, [⟨.eof, last, []⟩], 0⟩
  have hread : Parser.outermost.unary start = .ok (.str value, ⟨⟨.eof, last, []⟩, [], 1⟩) := by
    refine Parser.unary_of_primary rfl (fun d => ?_) TokenKind.noConfusion TokenKind.noConfusion
      TokenKind.noConfusion
    exact Parser.primary_string rfl htext
  obtain ⟨t, hwhole⟩ := Parser.wholeExpr_of_unary (c := start) TokenKind.noConfusion hread rfl
  exact Parser.run_eq_ok_iff.mpr ⟨_, t, htokens, hwhole⟩

/-- Every text can be written as a literal, which is one token and is read as that text. -/
theorem Expr.parse_quote (s : String) :
    Token.tokenize (Literal.quote s) =
      .ok [⟨.string, ⟨0, (Literal.quote s).utf8ByteSize⟩, (Literal.quote s).toList⟩,
      ⟨.eof, ⟨(Literal.quote s).utf8ByteSize, (Literal.quote s).utf8ByteSize⟩, []⟩] ∧
    Expr.parse (Literal.quote s) = .ok (.str s) :=
  ⟨Token.tokenize_quote s, Expr.parse_of_literal (Token.tokenize_quote s) (Literal.unquote_quote s)⟩

end SchemaMock

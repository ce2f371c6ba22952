import Mathlib.Data.Nat.Digits.Defs
import SchemaMock.Expr.Literal
import SchemaMock.Proofs.Outcome

/-! # What a string literal spells

Between its quotes a literal spells a text: a backslash and the character after it stand for one
character, and all others for themselves. A Unicode escape takes the next four characters, or those
that are left if they are fewer, and the number may carry a plus sign.
-/

namespace SchemaMock.Literal

/-- The character that one after a backslash stands for, other than in a Unicode escape. -/
def escaped? : Char → Option Char
  | 'n' => some '\n'
  | 't' => some '\t'
  | 'r' => some '\r'
  | '"' => some '"'
  | '\\' => some '\\'
  | '/' => some '/'
  | _ => none

/-- The digits are the number of the character in hexadecimal, perhaps after a plus sign. -/
def Denotes (digits : List Char) (c : Char) : Prop :=
  ∃ hex values, (digits = hex ∨ digits = '+' :: hex) ∧ hex ≠ [] ∧
    List.Forall₂ (fun d v => hexDigit? d = some v) hex values ∧
      Nat.ofDigits 16 values.reverse = c.toNat

/-- The text between the quotes of a literal, and the text that it spells. -/
inductive Spells : List Char → List Char → Prop where
  | nil : Spells [] []
  | plain {c : Char} {cs out : List Char} : c ≠ '\\' → Spells cs out → Spells (c :: cs) (c :: out)
  | escape {e c : Char} {cs out : List Char} :
      escaped? e = some c → Spells cs out → Spells ('\\' :: e :: cs) (c :: out)
  | unicode {c : Char} {cs out : List Char} :
      Denotes (cs.take 4) c → Spells (cs.drop 4) out → Spells ('\\' :: 'u' :: cs) (c :: out)

/-! ## Numbers of characters -/

theorem foldlM_hexDigit? {digits : List Char} {n m : Nat} :
    digits.foldlM (fun n c => (hexDigit? c).map (n * 16 + ·)) n = some m ↔
      ∃ values, List.Forall₂ (fun d v => hexDigit? d = some v) digits values ∧
        m = Nat.ofDigits 16 (values.reverse ++ [n]) := by
  induction digits generalizing n with
  | nil =>
    constructor
    · intro h
      cases h
      exact ⟨[], .nil, by simp⟩
    · rintro ⟨values, hvalues, rfl⟩
      cases hvalues
      simp
  | cons d digits ih =>
    have hstep (v : Nat) (values : List Nat) : Nat.ofDigits 16 (values.reverse ++ [n * 16 + v]) =
        Nat.ofDigits 16 ((v :: values).reverse ++ [n]) := by
      simp [Nat.ofDigits_append, Nat.ofDigits_cons]
      ring
    rw [List.foldlM_cons]
    constructor
    · intro h
      obtain ⟨n', hn', h⟩ := Option.bind_eq_some_iff.mp h
      obtain ⟨v, hv, rfl⟩ := Option.map_eq_some_iff.mp hn'
      obtain ⟨values, hvalues, rfl⟩ := ih.mp h
      exact ⟨v :: values, .cons hv hvalues, hstep v values⟩
    · rintro ⟨values, hvalues, rfl⟩
      cases hvalues with
      | @cons _ v _ values hv hvalues =>
        refine Option.bind_eq_some_iff.mpr ⟨n * 16 + v, by rw [hv]; rfl, ?_⟩
        exact ih.mpr ⟨values, hvalues, (hstep v values).symm⟩

theorem hexNumber?_eq_some_iff {digits : List Char} {n : Nat} :
    hexNumber? digits = some n ↔ digits ≠ [] ∧
      ∃ values, List.Forall₂ (fun d v => hexDigit? d = some v) digits values ∧
        Nat.ofDigits 16 values.reverse = n := by
  unfold hexNumber?
  cases digits with
  | nil => simp
  | cons d digits =>
    rw [if_neg (by simp), foldlM_hexDigit?]
    simp [Nat.ofDigits_append, eq_comm]

theorem codePoint?_eq_some_iff {digits : List Char} {c : Char} : codePoint? digits = some c ↔
    Denotes digits c := by
  have hof {hex : List Char} :
      (hexNumber? hex >>= fun n => if n.isValidChar then some (Char.ofNat n) else none) = some c ↔
        hexNumber? hex = some c.toNat := by
    rw [Option.bind_eq_bind, Option.bind_eq_some_iff]
    constructor
    · rintro ⟨n, hn, h⟩
      split at h
      case isTrue hvalid =>
        cases h
        rw [hn, Char.ofNat, dif_pos hvalid]
        rfl
      case isFalse => cases h
    · intro h
      refine ⟨c.toNat, h, ?_⟩
      rw [if_pos (show c.toNat.isValidChar from c.valid), Char.ofNat_toNat]
  unfold codePoint? Denotes
  split
  case h_1 rest =>
    rw [hof, hexNumber?_eq_some_iff]
    constructor
    · rintro ⟨hne, values, hvalues, hc⟩
      exact ⟨rest, values, .inr rfl, hne, hvalues, hc⟩
    · rintro ⟨hex, values, rfl | hdigits, hne, hvalues, hc⟩
      · cases hvalues with
        | cons hplus => cases hplus
      · cases hdigits
        exact ⟨hne, values, hvalues, hc⟩
  case h_2 hplus =>
    rw [hof, hexNumber?_eq_some_iff]
    constructor
    · rintro ⟨hne, values, hvalues, hc⟩
      exact ⟨digits, values, .inl rfl, hne, hvalues, hc⟩
    · rintro ⟨hex, values, rfl | hdigits, hne, hvalues, hc⟩
      · exact ⟨hne, values, hvalues, hc⟩
      · exact (hplus hex hdigits).elim

/-! ## Reading a literal -/

theorem unescape_plain {c : Char} (hc : c ≠ '\\') (cs : List Char) :
    unescape (c :: cs) = (c :: ·) <$> unescape cs := by
  rw [unescape]
  all_goals intros; contradiction

theorem Spells.of_unescape {cs out : List Char} (h : unescape cs = .ok out) : Spells cs out := by
  fun_induction unescape cs generalizing out
  case case1 =>
    cases h
    exact .nil
  case case2 hc ih =>
    obtain ⟨out, hout, rfl⟩ := Except.exists_of_map_eq_ok h
    exact .unicode (codePoint?_eq_some_iff.mp hc) (ih hout)
  case case3 => cases h
  case case10 => cases h
  case case11 => cases h
  case case12 c cs _ _ _ _ _ _ _ hother hlast ih =>
    obtain ⟨out, hout, rfl⟩ := Except.exists_of_map_eq_ok h
    refine .plain (fun hc => ?_) (ih hout)
    cases cs with
    | nil => exact hlast hc rfl
    | cons d ds => exact hother d ds hc rfl
  all_goals
    rename_i ih
    obtain ⟨out, hout, rfl⟩ := Except.exists_of_map_eq_ok h
    exact .escape rfl (ih hout)

theorem Spells.unescape {cs out : List Char} (h : Spells cs out) : unescape cs = .ok out := by
  induction h with
  | nil => rw [Literal.unescape]
  | plain hc h ih =>
    rw [unescape_plain hc, ih]
    rfl
  | escape he h ih =>
    unfold escaped? at he
    split at he <;> cases he <;> (rw [Literal.unescape, ih]; rfl)
  | unicode hc h ih =>
    rw [Literal.unescape, codePoint?_eq_some_iff.mpr hc, ih]
    rfl

/-- A literal has the value that its text spells, and none if the text spells none. -/
theorem unquote_eq_ok_iff {body : List Char} {s : String} :
    unquote ('"' :: body ++ ['"']) = .ok s ↔ Spells body s.toList := by
  have hbody : (('"' :: body ++ ['"']).drop 1).dropLast = body := by simp
  rw [unquote, hbody]
  constructor
  · intro h
    obtain ⟨out, hout, rfl⟩ := Except.exists_of_map_eq_ok h
    rw [String.toList_ofList]
    exact .of_unescape hout
  · intro h
    rw [h.unescape]
    exact congrArg Except.ok String.ofList_toList

/-- An escape that is cut short, and one with a sign. -/
example : Spells "\\u41".toList ['A'] ∧ Spells "\\u+041".toList ['A'] := by
  constructor <;> exact .of_unescape (by decide +kernel)

end SchemaMock.Literal

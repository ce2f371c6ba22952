import SchemaMock.Proofs.Outcome
import SchemaMock.Token.Cursor

/-! # What tokens show

A token shows its kind and its text. Where it stands matters to faults only, so two texts that are
cut into tokens with the same faces are read alike.
-/

namespace SchemaMock

/-- What a token shows wherever it stands. -/
abbrev Face := TokenKind × List Char

def Token.face (t : Token) : Face := (t.kind, t.text)

namespace Token

/-- The text is cut into tokens with these faces. -/
def Cuts (cs : List Char) (faces : List Face) : Prop :=
  ∀ pos, ∃ ts, tokenizeFrom pos cs = .ok ts ∧ ts.map face = faces

variable {c : Char} {cs : List Char} {kind : TokenKind} {faces : List Face}

theorem Cuts.nil : Cuts [] [(.eof, [])] := fun pos => ⟨_, by rw [tokenizeFrom], rfl⟩

theorem Cuts.token (hcut : (cut c cs).lexeme = .token kind) (h : Cuts (cut c cs).rest faces) :
    Cuts (c :: cs) ((kind, c :: (cut c cs).taken) :: faces) := by
  intro pos
  let stop := pos + byteLength (c :: (cut c cs).taken)
  obtain ⟨ts, hts, hfaces⟩ := h stop
  refine ⟨⟨kind, ⟨pos, stop⟩, c :: (cut c cs).taken⟩ :: ts, ?_, by rw [List.map_cons, hfaces]; rfl⟩
  rw [tokenizeFrom]
  simp only [hcut]
  rw [hts]
  rfl

theorem Cuts.gap (hcut : (cut c cs).lexeme = .gap) (h : Cuts (cut c cs).rest faces) :
    Cuts (c :: cs) faces := by
  intro pos
  obtain ⟨ts, hts, hfaces⟩ := h (pos + byteLength (c :: (cut c cs).taken))
  refine ⟨ts, ?_, hfaces⟩
  rw [tokenizeFrom]
  simp only [hcut]
  exact hts

/-- A text shows the same tokens wherever it begins. -/
theorem cuts_of_tokenizeFrom {pos : Nat} {ts : List Token} (h : tokenizeFrom pos cs = .ok ts) :
    Cuts cs (ts.map face) := by
  fun_induction tokenizeFrom pos cs generalizing ts
  case case1 =>
    cases h
    exact .nil
  case case2 => cases h
  case case3 hgap ih => exact .gap hgap (ih h)
  case case4 hkind ih =>
    obtain ⟨us, hus, h⟩ := Except.exists_of_bind_eq_ok h
    cases h
    exact .token hkind (ih hus)

theorem cuts_dropWhile_isGap {cs : List Char} {faces : List Face} (h : Cuts cs faces) :
    Cuts (cs.dropWhile isGap) faces := by
  cases cs with
  | nil => exact h
  | cons c cs =>
    cases hgap : isGap c with
    | false => rwa [List.dropWhile_cons_of_neg (by simp [hgap])]
    | true =>
      obtain ⟨ts, hts, rfl⟩ := h 0
      rw [tokenizeFrom] at hts
      have hcut : cut c cs = run .gap isGap cs := if_pos hgap
      rw [List.dropWhile_cons_of_pos hgap]
      simp only [hcut, run] at hts
      exact cuts_of_tokenizeFrom hts

/-- The last token is the end of the text. -/
theorem last_of_tokenizeFrom {pos : Nat} {cs : List Char} {ts : List Token}
    (h : tokenizeFrom pos cs = .ok ts) : ∃ us t, ts = us ++ [t] ∧ t.kind = .eof := by
  fun_induction tokenizeFrom pos cs generalizing ts
  case case1 =>
    cases h
    exact ⟨[], _, rfl, rfl⟩
  case case2 => cases h
  case case3 ih => exact ih h
  case case4 ih =>
    obtain ⟨vs, hvs, h⟩ := Except.exists_of_bind_eq_ok h
    cases h
    obtain ⟨us, t, rfl, hkind⟩ := ih hvs
    exact ⟨_ :: us, t, rfl, hkind⟩

end Token

def Cursor.faces (c : Cursor) : List Face := (c.current :: c.later).map Token.face

end SchemaMock

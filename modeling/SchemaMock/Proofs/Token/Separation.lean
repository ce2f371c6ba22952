import SchemaMock.Proofs.Token.Seams

/-! # Tokens written apart

The tokens of a text, written with a single blank between every two, are the tokens of what is
written. No two of them grow together, and none opens a comment, an attribute or a longer sign.
-/

namespace SchemaMock.Token

variable {c : Char} {cs : List Char} {kind : TokenKind} {faces : List Face}

/-- By itself the text of a token is cut off whole, and as the same token. -/
theorem cut_taken (h : (cut c cs).lexeme = .token kind) :
    cut c (cut c cs).taken = ⟨.token kind, (cut c cs).taken, []⟩ := by
  have hform := formed_cut c cs (h ▸ Lexeme.noConfusion)
  have happend := cut_append c cs
  have halone : (cut c (cut c cs).taken).Reaches (cut c cs).lexeme (c :: (cut c cs).taken) :=
    reaches_of_form hform (List.append_nil _).symm
  have hagain : c :: cs = c :: (cut c (cut c cs).taken).taken ++
      ((cut c (cut c cs).taken).rest ++ (cut c cs).rest) := by
    rw [List.cons_append, ← List.append_assoc, cut_append, happend]
  have hlonger :
      (cut c cs).Reaches (cut c (cut c cs).taken).lexeme (c :: (cut c (cut c cs).taken).taken) :=
    reaches_of_form (formed_cut _ _ halone.good) hagain
  have hcut : (⟨(cut c cs).lexeme, (cut c cs).taken, []⟩ : Cut) = cut c (cut c cs).taken :=
    Cut.Reaches.antisymm ⟨hlonger.good, hlonger.le, hlonger.same⟩ halone (List.append_nil _)
      (cut_append _ _)
  rw [← hcut, h]

def Whole (f : Face) : Prop := ∃ c cs, f.2 = c :: cs ∧ cut c cs = ⟨.token f.1, cs, []⟩

theorem whole_of_tokenizeFrom {pos : Nat} {ts : List Token} (h : tokenizeFrom pos cs = .ok ts) :
    ∃ us t, ts = us ++ [t] ∧ t.face = (.eof, []) ∧ ∀ u ∈ us, Whole u.face ∧ u.kind ≠ .eof := by
  fun_induction tokenizeFrom pos cs generalizing ts
  case case1 =>
    cases h
    exact ⟨[], _, rfl, rfl, List.forall_mem_nil _⟩
  case case2 => cases h
  case case3 ih => exact ih h
  case case4 c cs piece text stop kind hkind ih =>
    obtain ⟨later, hlater, h⟩ := Except.exists_of_bind_eq_ok h
    cases h
    obtain ⟨us, t, rfl, ht, hall⟩ := ih hlater
    have hform : Form (.token kind) text := hkind ▸ formed_cut c cs (hkind ▸ Lexeme.noConfusion)
    refine ⟨_ :: us, t, rfl, ht, List.forall_mem_cons.mpr ⟨⟨?_, hform.ne_eof⟩, hall⟩⟩
    exact ⟨c, piece.taken, rfl, cut_taken hkind⟩

/-- Texts that are cut off whole stay apart where a blank stands between every two. -/
theorem cuts_intercalate (h : ∀ f ∈ faces, Whole f) :
    Cuts ([' '].intercalate (faces.map Prod.snd)) (faces ++ [(.eof, [])]) := by
  induction faces with
  | nil => exact .nil
  | cons f faces ih =>
    obtain ⟨⟨c, cs, htext, hcut⟩, hrest⟩ := List.forall_mem_cons.mp h
    obtain ⟨kind, text⟩ := f
    dsimp only at htext hcut
    subst htext
    cases faces with
    | nil => simpa using cuts_whole (w := []) hcut (fun _ hd => nomatch hd) .nil
    | cons g faces =>
      have hlater :
          Cuts (' ' :: [' '].intercalate ((g :: faces).map Prod.snd))
            (g :: faces ++ [(.eof, [])]) :=
        cuts_blank (ih hrest)
      have hstop : ∀ d ∈ (' ' :: [' '].intercalate ((g :: faces).map Prod.snd)).head?,
          isStop d = true := by
        rintro d ⟨⟩
        rfl
      rw [List.map_cons, List.map_cons, List.intercalate_cons_cons]
      simpa using cuts_whole hcut hstop hlater

/-- The text of a list of tokens, a blank between every two. The end of a text has none. -/
def separated (tokens : List Token) : String :=
  " ".intercalate ((tokens.filter (·.kind != .eof)).map fun t => String.ofList t.text)

/-- Written apart, tokens are cut into themselves. -/
theorem tokenize_separated {source : String} {tokens : List Token}
    (h : tokenize source = .ok tokens) :
    ∃ again, tokenize (separated tokens) = .ok again ∧ again.map face = tokens.map face := by
  obtain ⟨us, t, rfl, ht, hall⟩ := whole_of_tokenizeFrom h
  have hfilter : (us ++ [t]).filter (·.kind != .eof) = us := by
    rw [List.filter_append, List.filter_eq_self.mpr fun u hu => bne_iff_ne.mpr (hall u hu).2]
    simp [(Prod.mk.inj ht).1]
  have htext : (separated (us ++ [t])).toList = [' '].intercalate ((us.map face).map Prod.snd) := by
    rw [separated, hfilter, String.toList_intercalate, List.map_map, List.map_map]
    simp [Function.comp_def, face]
  have hcuts :
      Cuts ([' '].intercalate ((us.map face).map Prod.snd)) (us.map face ++ [(.eof, [])]) :=
    cuts_intercalate (List.forall_mem_map.mpr fun u hu => (hall u hu).1)
  rw [tokenize, htext, List.map_append, List.map_singleton, ht]
  exact hcuts 0

theorem tokenize_separated_dense :
    let tokens : List Token :=
  [⟨.bottom, ⟨0, 3⟩, ['_', '|', '_']⟩, ⟨.bar, ⟨3, 4⟩, ['|']⟩, ⟨.ident, ⟨4, 6⟩, ['_', '1']⟩,
      ⟨.slash, ⟨6, 7⟩, ['/']⟩, ⟨.slash, ⟨8, 9⟩, ['/']⟩, ⟨.float, ⟨9, 12⟩, ['2', '.', '5']⟩,
      ⟨.ident, ⟨12, 13⟩, ['e']⟩, ⟨.ellipsis, ⟨18, 21⟩, ['.', '.', '.']⟩, ⟨.eof, ⟨23, 23⟩, []⟩]
    tokenize "_|_|_1/ /2.5e@t(=)...//" = .ok tokens ∧ separated tokens = "_|_ | _1 / / 2.5 e ..." ∧
      ∃ again, tokenize (separated tokens) = .ok again ∧ again.map face = tokens.map face :=
  ⟨by decide +kernel, by decide +kernel, @tokenize_separated "_|_|_1/ /2.5e@t(=)...//" _ (by decide +kernel)⟩

end SchemaMock.Token

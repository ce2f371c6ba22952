import SchemaMock.Path
import SchemaMock.Proofs.Token.Lexemes

/-! # Paths and their texts

A path is read back from its text, so that no two paths are written alike. This holds of the paths
whose names do not run into what follows them and are written without escapes.
-/

namespace SchemaMock

namespace Selector

/-- Selectors that are read as they are written. -/
inductive Legible : Selector → Prop where
  | identifier {name : String} :
      isIdentifier name.toList = true → name.toList.head? ≠ some '_' ∨ name = "_" →
      Legible (.label (.regular name))
  | quoted {name : String} :
      isIdentifier name.toList = false → (∀ c ∈ name.toList, Text.escapeChar c = [c]) →
      Legible (.label (.regular name))
  | definition {name : String} : (∀ c ∈ name.toList, c ≠ '.' ∧ c ≠ '[') →
    Legible (.label (.definition name))
  | hidden {name : String} : name.toList.head? = some '_' → 1 < name.utf8ByteSize →
      (∀ c ∈ name.toList, c ≠ '.' ∧ c ≠ '[') → Legible (.label (.hidden name))
  | index {n : Nat} : n < 1 <<< 64 → Legible (.index n)

/-! ## How labels are written -/

theorem no_stop_of_isIdentChar {c : Char} (h : Token.isIdentChar c = true) : c ≠ '.' ∧ c ≠ '[' := by
  constructor <;> rintro rfl <;> cases h

theorem exists_of_isIdentifier {name : String} (h : isIdentifier name.toList = true) :
    ∃ c cs, name.toList = c :: cs ∧ Token.isIdentStart c = true ∧
      ∀ d ∈ cs, Token.isIdentChar d = true := by
  cases htext : name.toList with
  | nil =>
    rw [htext] at h
    cases h
  | cons c cs =>
    rw [htext, isIdentifier, Bool.and_eq_true, List.all_eq_true] at h
    exact ⟨c, cs, rfl, h⟩

theorem ofIdent_of_isIdentStart {c : Char} {cs : List Char} (hc : Token.isIdentStart c = true)
    (hfirst : c ≠ '_' ∨ cs = []) :
    Label.ofIdent (c :: cs) = .regular (String.ofList (c :: cs)) := by
  unfold Label.ofIdent
  split
  case h_1 hhash =>
    rw [(List.cons.inj hhash).1] at hc
    cases hc
  case h_2 hhidden =>
    cases hhidden
    simp at hfirst
  case h_3 => rfl

theorem flatMap_escapeChar {cs : List Char} (h : ∀ c ∈ cs, Text.escapeChar c = [c]) :
    cs.flatMap Text.escapeChar = cs := by
  induction cs with
  | nil => rfl
  | cons c cs ih =>
    obtain ⟨hc, hcs⟩ := List.forall_mem_cons.mp h
    rw [List.flatMap_cons, hc, ih hcs, List.singleton_append]

/-- A label is written in quotes, or as a name that is classified as the label. -/
theorem Legible.written {l : Label} (h : (label l).Legible) :
    (∃ c cs, (label l).display.toList = c :: cs ∧ c ≠ '"' ∧ (∀ d ∈ c :: cs, d ≠ '.' ∧ d ≠ '[') ∧
      Label.ofIdent (c :: cs) = l) ∨
    ∃ inner, (label l).display.toList = '"' :: inner ++ ['"'] ∧ (∀ c ∈ inner, c ≠ '"') ∧
      l = .regular (String.ofList inner) := by
  cases h with
  | @identifier name hname hfirst =>
    obtain ⟨c, cs, htext, hc, hcs⟩ := exists_of_isIdentifier hname
    have hall : ∀ d ∈ c :: cs, d ≠ '.' ∧ d ≠ '[' :=
      List.forall_mem_cons.mpr ⟨no_stop_of_isIdentChar (Token.isIdentChar_of_isIdentStart hc),
        fun d hd => no_stop_of_isIdentChar (hcs d hd)⟩
    have hregular : c ≠ '_' ∨ cs = [] := by
      obtain hfirst | rfl := hfirst
      · exact .inl fun hc => hfirst (by rw [htext, hc]; rfl)
      · exact .inr (List.cons.inj htext).2.symm
    refine .inl ⟨c, cs, ?_, ?_, hall, ?_⟩
    · rw [display, if_pos hname, htext]
    · rintro rfl
      cases hc
    · rw [ofIdent_of_isIdentStart hc hregular, ← htext, String.ofList_toList]
  | @quoted name hname hplain =>
    refine .inr ⟨name.toList, ?_, fun c hc => ?_, by rw [String.ofList_toList]⟩
    · rw [display, if_neg (by simp [hname]), Text.quote, String.toList_ofList,
        flatMap_escapeChar hplain]
    · rintro rfl
      cases hplain _ hc
  | @definition name hname =>
    refine .inl ⟨'#', name.toList, ?_, by decide, List.forall_mem_cons.mpr ⟨by decide, hname⟩, ?_⟩
    · simp [display, Label.display]
    · simp [Label.ofIdent]
  | @hidden name hhead hlength hname =>
    obtain ⟨cs, htext⟩ := List.head?_eq_some_iff.mp hhead
    obtain ⟨d, ds, rfl⟩ : ∃ d ds, cs = d :: ds := by
      refine List.exists_cons_of_ne_nil fun hnil => ?_
      obtain rfl : name = "_" := String.toList_inj.mp (by rw [htext, hnil]; rfl)
      exact absurd hlength (by decide)
    refine .inl ⟨'_', d :: ds, by simp [display, Label.display, htext], by decide, htext ▸ hname, ?_⟩
    rw [Label.ofIdent, ← htext, String.ofList_toList]

theorem Legible.head_label {l : Label} (h : (label l).Legible) :
    ∃ c cs, (label l).display.toList = c :: cs ∧ c ≠ '.' ∧ c ≠ '[' := by
  obtain ⟨c, cs, htext, -, hinner, -⟩ | ⟨inner, htext, -⟩ := h.written
  · exact ⟨c, cs, htext, hinner c List.mem_cons_self⟩
  · exact ⟨'"', inner ++ ['"'], htext, by decide, by decide⟩

theorem toList_display_index (n : Nat) :
    (index n).display.toList = '[' :: Nat.toDigits 10 n ++ [']'] := by
  show ("[" ++ toString n ++ "]").toList = _
  simp

end Selector

/-! ## How indices are read -/

theorem Text.isBlank_of_isDigit {c : Char} (h : c.isDigit = true) : isBlank c = false := by
  have hrange : 48 ≤ c.toNat ∧ c.toNat ≤ 57 := by
    simpa [Char.isDigit, UInt32.le_iff_toNat_le] using h
  rw [Bool.eq_false_iff, isBlank, ne_eq, CharSet.contains_iff]
  simp only [whiteSpace, List.mem_cons, List.not_mem_nil, or_false]
  grind

theorem Text.trim_eq_self {cs : List Char} (h : ∀ c ∈ cs, isBlank c = false) : trim cs = cs := by
  have hkeep {ds : List Char} (hds : ∀ c ∈ ds, isBlank c = false) : ds.dropWhile isBlank = ds := by
    cases ds with
    | nil => rfl
    | cons d ds => rw [List.dropWhile_cons_of_neg (by simp [hds d])]
  rw [trim, hkeep h, hkeep fun c hc => h c (List.mem_reverse.mp hc), List.reverse_reverse]

theorem Literal.natural_toDigits (n : Nat) : natural (Nat.toDigits 10 n) = n := by
  have hfold : natural (Nat.toDigits 10 n) = Nat.ofDigitChars 10 (Nat.toDigits 10 n) 0 := by
    simp only [natural, Nat.ofDigitChars, Nat.mul_comm]
  rw [hfold, Nat.ofDigitChars_toDigits (by decide) (by decide)]

namespace Path

theorem isDigit_of_mem {n : Nat} {c : Char} (h : c ∈ Nat.toDigits 10 n) : c.isDigit = true :=
  Nat.isDigit_of_mem_toDigits (by decide) (by decide) h

theorem indexOf?_toDigits {n : Nat} (h : n < 1 <<< 64) : indexOf? (Nat.toDigits 10 n) = some n := by
  have hall : (Nat.toDigits 10 n).all Char.isDigit = true :=
    List.all_eq_true.mpr fun c hc => isDigit_of_mem hc
  have hne : (Nat.toDigits 10 n).isEmpty = false := by simp [Nat.toDigits_ne_nil]
  unfold indexOf?
  split
  case h_1 rest hplus =>
    have hdigit : '+'.isDigit = true := isDigit_of_mem (n := n) (by simp [hplus])
    cases hdigit
  case h_2 => simpa [hne, hall, Literal.natural_toDigits] using h

/-! ## Reading on -/

def Reads (started : Bool) (cs : List Char) (selectors : List Selector) : Prop :=
  ∀ text pos, selectorsFrom text started pos cs = .ok selectors

def Ends (rest : List Char) : Prop := ∀ c ∈ rest.head?, c = '.' ∨ c = '['

variable {started : Bool} {c : Char} {cs rest inner : List Char} {selectors : List Selector}

namespace Reads

theorem nil : Reads started [] [] := fun text pos => by rw [selectorsFrom]

theorem index {n : Nat} (hn : n < 1 <<< 64) (h : Reads true rest selectors) :
    Reads started ('[' :: Nat.toDigits 10 n ++ ']' :: rest) (.index n :: selectors) := by
  intro text pos
  have hdigits : ∀ c ∈ Nat.toDigits 10 n, (c != ']') = true := fun c hc =>
    bne_iff_ne.mpr fun hclose => by
      have hdigit := isDigit_of_mem hc
      rw [hclose] at hdigit
      cases hdigit
  have htrim : Text.trim (Nat.toDigits 10 n) = Nat.toDigits 10 n :=
    Text.trim_eq_self fun c hc => Text.isBlank_of_isDigit (isDigit_of_mem hc)
  have hdrop := Token.dropWhile_append_stop hdigits (e := ']') rfl rest
  rw [List.cons_append, selectorsFrom]
  split
  case h_1 hnone =>
    rw [hdrop] at hnone
    cases hnone
  case h_2 d later hlater =>
    obtain ⟨-, rfl⟩ := List.cons.inj (hdrop.symm.trans hlater)
    rw [Token.takeWhile_append_stop hdigits rfl, htrim, indexOf?_toDigits hn]
    dsimp only
    rw [h]
    rfl

theorem quoted (hinner : ∀ c ∈ inner, c ≠ '"') (h : Reads true rest selectors) :
    Reads started ('"' :: inner ++ '"' :: rest)
      (.label (.regular (String.ofList inner)) :: selectors) := by
  intro text pos
  have hpass : ∀ c ∈ inner, (c != '"') = true := fun c hc => bne_iff_ne.mpr (hinner c hc)
  have hdrop := Token.dropWhile_append_stop hpass (e := '"') rfl rest
  rw [List.cons_append, selectorsFrom]
  split
  case h_1 hnone =>
    rw [hdrop] at hnone
    cases hnone
  case h_2 d later hlater =>
    obtain ⟨-, rfl⟩ := List.cons.inj (hdrop.symm.trans hlater)
    rw [Token.takeWhile_append_stop hpass rfl, h]
    rfl

theorem ident (hquote : c ≠ '"') (hinner : ∀ d ∈ c :: cs, d ≠ '.' ∧ d ≠ '[') (hrest : Ends rest)
    (h : Reads true rest selectors) :
    Reads started (c :: cs ++ rest) (.label (Label.ofIdent (c :: cs)) :: selectors) := by
  intro text pos
  obtain ⟨⟨hdot, hbracket⟩, hcs⟩ := List.forall_mem_cons.mp hinner
  have hpass : ∀ d ∈ cs, (d != '.' && d != '[') = true := fun d hd => by simpa using hcs d hd
  have hstop : rest.takeWhile (fun d => d != '.' && d != '[') = [] ∧
      rest.dropWhile (fun d => d != '.' && d != '[') = rest := by
    cases rest with
    | nil => exact ⟨rfl, rfl⟩
    | cons e rest => obtain rfl | rfl := hrest e rfl <;> exact ⟨rfl, rfl⟩
  rw [List.cons_append, selectorsFrom]
  · rw [List.takeWhile_append_of_pos hpass, List.dropWhile_append_of_pos hpass, hstop.1, hstop.2,
      List.append_nil, h]
    rfl
  all_goals assumption

theorem dot (hdot : c ≠ '.') (hbracket : c ≠ '[') (h : Reads true (c :: cs) selectors) :
    Reads true ('.' :: c :: cs) selectors := by
  intro text pos
  rw [selectorsFrom, if_pos rfl]
  · exact h text (pos + 1)
  · exact hdot
  · exact hbracket

/-- A selector that is legible is read back. -/
theorem display {s : Selector} (hs : s.Legible) (hrest : Ends rest)
    (h : Reads true rest selectors) :
    Reads started (s.display.toList ++ rest) (s :: selectors) := by
  cases s with
  | label l =>
    obtain ⟨c, cs, htext, hquote, hinner, hlabel⟩ | ⟨inner, htext, hinner, hlabel⟩ := hs.written
    · rw [htext, ← hlabel]
      exact .ident hquote hinner hrest h
    · rw [htext, hlabel]
      simpa using Reads.quoted hinner h
  | index n =>
    cases hs with
    | index hn =>
      rw [Selector.toList_display_index]
      simpa using Reads.index hn h

end Reads

/-- What comes after the first selector of a path is read, and begins with a dot or a bracket. -/
theorem reads_steps (h : ∀ s ∈ selectors, s.Legible) :
    Reads true (selectors.flatMap fun s => (displayStep s).toList) selectors ∧
      Ends (selectors.flatMap fun s => (displayStep s).toList) := by
  induction selectors with
  | nil => exact ⟨.nil, nofun⟩
  | cons s selectors ih =>
    obtain ⟨hs, hselectors⟩ := List.forall_mem_cons.mp h
    obtain ⟨hrest, hends⟩ := ih hselectors
    have hread : Reads true (s.display.toList ++ selectors.flatMap fun s => (displayStep s).toList)
        (s :: selectors) :=
      .display hs hends hrest
    rw [List.flatMap_cons]
    cases s with
    | index n =>
      refine ⟨hread, fun c hc => .inr ?_⟩
      simpa [displayStep, Selector.toList_display_index] using hc.symm
    | label l =>
      refine ⟨?_, fun c hc => .inl ?_⟩
      · obtain ⟨c, cs, htext, hdot, hbracket⟩ := hs.head_label
        rw [htext] at hread
        simpa [displayStep, htext] using hread.dot hdot hbracket
      · simpa [displayStep] using hc.symm

theorem parse_of_legible {p : Path} (h : ∀ s ∈ p.selectors, s.Legible) :
    parse p.display = .ok p := by
  obtain ⟨selectors⟩ := p
  have hread : Reads false (display ⟨selectors⟩).toList selectors := by
    cases selectors with
    | nil => exact .nil
    | cons s selectors =>
      obtain ⟨hs, hselectors⟩ := List.forall_mem_cons.mp h
      obtain ⟨hrest, hends⟩ := reads_steps hselectors
      simpa [display, List.flatMap_map] using Reads.display hs hends hrest
  rw [parse, hread]
  rfl

/-- A path that is legible is read back from its text, so that no other one is written alike. -/
theorem parse_display {p : Path} (h : ∀ s ∈ p.selectors, s.Legible) :
    parse p.display = .ok p ∧ ∀ q : Path, (∀ s ∈ q.selectors, s.Legible) →
    q.display = p.display → q = p := by
  refine ⟨parse_of_legible h, fun q hq hsame => ?_⟩
  have hread := parse_of_legible hq
  rw [hsame, parse_of_legible h] at hread
  exact (Except.ok.inj hread).symm

theorem parse_display_mixed :
    let p : Path := ⟨[.label (.regular "é.[]"), .label (.regular ""), .label (.definition "a]\"b"),
      .index 18446744073709551615, .index 0, .label (.hidden "_#"), .label (.regular "_"),
      .label (.regular "$0"), .label (.definition "")]⟩
    p.display = "\"é.[]\".\"\".#a]\"b[18446744073709551615][0]._#._.$0.#" ∧
      parse p.display = .ok p ∧
      ∀ q : Path, (∀ s ∈ q.selectors, s.Legible) → q.display = p.display → q = p := by
  have hplain : ∀ c ∈ "é.[]".toList, Text.escapeChar c = [c] := by
    simp only [String.reduceToList, List.mem_cons, List.not_mem_nil, or_false,
      forall_eq_or_imp, forall_eq]
    decide +kernel
  refine ⟨by decide +kernel, parse_display ?_⟩
  simp only [List.forall_mem_cons]
  exact ⟨.quoted (by decide) hplain, .quoted (by decide) (by simp), .definition (by simp),
    .index (by decide), .index (by decide), .hidden (by decide) (by decide) (by simp),
    .identifier (by decide) (.inr rfl),
    .identifier (by decide) (.inl (by decide)), .definition (by simp), nofun⟩

end Path

end SchemaMock

import SchemaMock.Proofs.Eval.Alternatives
import SchemaMock.Proofs.Eval.Reference

/-! # Fills that are held back

While a disjunction is decided, the fills below its paths do not count. What is said of vertices and
scopes holds all the same. Where no fill lies below, nothing is held back.
-/

namespace SchemaMock

open Arena Eval

namespace Path

variable {p q r : Path}

theorem startsWith_trans (h : p.startsWith q = true) (h' : q.startsWith r = true) :
    p.startsWith r = true := by
  rw [startsWith_iff] at *
  exact h'.trans h

theorem startsWith_child (p : Path) (s : Selector) : (p.child s).startsWith p = true := by
  rw [startsWith_iff]
  exact List.prefix_append _ _

theorem length_le_of_startsWith (h : p.startsWith q = true) : q.length ≤ p.length := by
  rw [startsWith_iff] at h
  exact h.length_le

end Path

namespace Arena

variable {a b : Arena} {own : Nat → Prop} {ps qs : List Path} {label : Label} {s t : Nat}

theorem grown_withhold (a : Arena) (ps : List Path) : Grown none a (a.withhold ps) :=
  grown_of_eq none rfl rfl

theorem Refers.withhold (h : a.Refers label s t) (ps : List Path) :
    (a.withhold ps).Refers label s t := by
  have hg := grown_withhold a ps
  cases h with
  | declared hd hsettles harc ht => exact .declared (hd.grown hg) (hsettles.grown hg nofun) harc ht
  | outermost ho hsettles harc ht =>
    exact .outermost (ho.grown hg) (hsettles.grown hg nofun) harc ht

theorem Apart.withhold {p : Option Nat} (h : a.Apart t p) (ps : List Path) :
    (a.withhold ps).Apart t p := by
  induction h with
  | top => exact .top
  | under hs hf hne _ ih => exact .under hs hf hne ih

/-- A fill strictly below one of the paths is held back. -/
theorem isWithheld_withhold {p q : Path} (hp : p ∈ ps) (hlt : p.length < q.length)
    (hq : q.startsWith p = true) : (a.withhold ps).isWithheld q = true := by
  refine List.any_eq_true.mpr ⟨p, List.mem_append_right _ hp, ?_⟩
  rw [hq, decide_eq_true hlt]
  rfl

/-- No fill is seen below the paths. -/
theorem fillsAt_withhold (h : ∀ q ∈ qs, ∃ p ∈ ps, p.length < q.length ∧ q.startsWith p = true) :
    (a.withhold ps).fillsAt qs = [] := by
  simp only [fillsAt, List.map_eq_nil_iff, List.filter_eq_nil_iff, Bool.and_eq_true, not_and]
  intro fill _ hat
  obtain ⟨p, hp, hlt, hq⟩ := h _ (List.contains_iff_mem.mp hat)
  rw [isWithheld_withhold hp hlt hq]
  decide

theorem fillSelectors_withhold (h : ∀ q ∈ qs, ∃ p ∈ ps, q.startsWith p = true) :
    (a.withhold ps).fillSelectors qs = [] := by
  have hnone :
      (((a.withhold ps).fills.filter fun fill => !(a.withhold ps).isWithheld fill.path).flatMap
      fun fill => qs.filterMap fun path =>
        if fill.path.startsWith path then fill.path.selectors[path.length]? else none) = [] := by
    refine List.flatMap_eq_nil_iff.mpr fun fill hfill =>
      List.filterMap_eq_nil_iff.mpr fun q hq => ?_
    have hseen : (!(a.withhold ps).isWithheld fill.path) = true := (List.mem_filter.mp hfill).2
    obtain ⟨p, hp, hqp⟩ := h q hq
    split
    case isFalse => rfl
    case isTrue hstarts =>
      refine List.getElem?_eq_none (Nat.le_of_not_lt fun hlt => ?_)
      have hheld := isWithheld_withhold (a := a) hp
        (Nat.lt_of_le_of_lt (Path.length_le_of_startsWith hqp) hlt)
        (Path.startsWith_trans hstarts hqp)
      rw [hheld] at hseen
      cases hseen
  show List.foldl _ [] _ = []
  rw [hnone]
  rfl

/-- What is done while fills are held back, with the fills as before. -/
theorem Intact.released (h : Intact own (a.withhold ps) b) :
    Intact own a { b with withheld := a.withheld } where
  size := h.size
  scopes := h.scopes
  scope := h.scope
  vertex := h.vertex
  fills := h.fills
  withheld _ _ := rfl

/-- Where no fill lies below, what is done while fills are held back is done with them. -/
theorem Intact.release (h : Intact own (a.withhold ps) b) (hbelow : a.hasFillsBelow ps = false)
    (wider : Nat → Prop) : Intact wider b { b with withheld := a.withheld } where
  size := Nat.le_refl _
  scopes := Nat.le_refl _
  scope _ := rfl
  vertex _ _ := rfl
  fills := rfl
  withheld fill hfill := by
    have hmem : fill ∈ a.fills := h.fills ▸ hfill
    have hnone : (a.withhold ps).isWithheld fill.path = a.isWithheld fill.path := by
      rw [hasFillsBelow_eq_false_iff] at hbelow
      have hrest : (ps.any fun path => decide (path.length < fill.path.length) && fill.path.startsWith path) =
          false := by
        simp only [List.any_eq_false, Bool.and_eq_true, decide_eq_true_eq]
        exact hbelow fill hmem
      show (a.withheld ++ ps).any _ = _
      rw [List.any_append, hrest, Bool.or_false]
      rfl
    exact (h.withheld fill hmem).trans hnone |>.symm

end Arena

end SchemaMock

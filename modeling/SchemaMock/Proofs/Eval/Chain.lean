import SchemaMock.Proofs.Eval.Reference
import SchemaMock.Proofs.Eval.Walk

/-! # Chains of references

A field may name another one, which names a third, and so on down to a literal. The field takes over
the seeds of its targets one by one, in as many rounds as there are targets, and ends up showing the
host data of the literal. What is written for the fields stays as it is.
-/

namespace SchemaMock

open Arena Eval

namespace Arena

variable {a b : Arena} {p : Option Nat} {s t v : Nat} {name : String} {e x : Expr} {ts : List Nat}

/-- A name stands for a vertex that is no ancestor, and an expression in the same scope is all that
is written for it. -/
structure Link (a : Arena) (p : Option Nat) (s : Nat) (name : String) (t : Nat)
    (x : Expr) : Prop where
  refers : a.Refers (.ofIdent name.toList) s t
  seeds : (a.vertex t).seeds = [.of x s false]
  forward : (a.vertex t).forward = none
  plain : ((a.vertex t).paths.head?.map Path.hasDefinition).getD false = false
  apart : a.Apart t p

theorem Link.lt_size (h : a.Link p s name t x) : t < a.vertices.size := by
  have hseeds := h.seeds
  refine Nat.lt_of_not_le fun hle => ?_
  rw [vertex_of_size_le hle] at hseeds
  cases hseeds

/-- Work at a vertex leaves what is written for it and for the others. -/
theorem Link.intact (h : a.Link p s name t x) (hi : Intact (· = v) a b)
    (hs : (a.vertex v).stage ≠ .done) (hseeds : (b.vertex v).seeds = (a.vertex v).seeds)
    (hpaths : (b.vertex v).paths = (a.vertex v).paths)
    (hforward : (b.vertex v).forward = (a.vertex v).forward) : b.Link p s name t x := by
  have hown : ∀ u, u = v → (a.vertex u).stage ≠ .done := by
    rintro u rfl
    exact hs
  have hsame : (b.vertex t).seeds = (a.vertex t).seeds ∧ (b.vertex t).paths = (a.vertex t).paths ∧
      (b.vertex t).forward = (a.vertex t).forward := by
    by_cases hv : t = v
    · exact hv ▸ ⟨hseeds, hpaths, hforward⟩
    · rw [hi.vertex h.lt_size hv]
      exact ⟨rfl, rfl, rfl⟩
  obtain ⟨hts, htp, htf⟩ := hsame
  exact ⟨h.refers.intact hi hown, hts.trans h.seeds, htf.trans h.forward, by rw [htp]; exact h.plain,
    h.apart.intact hi hown⟩

/-- Names lead from an expression to the last one, past the vertices that they stand for. -/
inductive Leads (a : Arena) (p : Option Nat) (s : Nat) (e : Expr) : Expr → List Nat → Prop
  | last : Leads a p s e e []
  | step {name : String} {t : Nat} {x : Expr} {ts : List Nat} :
      a.Link p s name t x → Leads a p s e x ts → Leads a p s e (.ident name) (t :: ts)

theorem Leads.imp (h : a.Leads p s e x ts)
    (hall : ∀ name t x, a.Link p s name t x → b.Link p s name t x) :
    b.Leads p s e x ts := by
  induction h with
  | last => exact .last
  | step hlink _ ih => exact .step (hall _ _ _ hlink) ih

end Arena

namespace Eval

variable {process : Nat → Eval Unit} {a : Arena} {p : Option Nat} {s t v : Nat} {name : String}
  {e x : Expr} {ts : List Nat} {j : Json}

/-- A name of a link is replaced by what is written for its vertex. -/
theorem addConjunct_of_link (process : Nat → Eval Unit) (h : a.Link (a.vertex v).parent s name t x)
    (hfills : a.fills = []) (hpaths : (a.vertex v).paths ≠ [])
    (hforward : (a.vertex v).forward = none) (harcs : (a.vertex v).arcs = [])
    (hnew : t ∉ (a.vertex v).copied) (hne : t ≠ v) (hlt : v < a.vertices.size) :
    addConjunct process v (.of (.ident name) s false) a =
      (⟨[.of x s false], [], []⟩, a.modify v fun y => { y with copied := y.copied ++ [t] }) := by
  have hresolve : (resolve process s (.ident name)).run a = (.ok (.vertex t), a) := by
    show (Attempt.ofExcept (a.lookupName name s)).run a = _
    rw [h.refers.lookupName]
    rfl
  have hknown : a.furtherPaths v (a.vertex t).paths = [] := by
    rw [furtherPaths, if_pos]
    simp [hfills, hpaths]
  have hcopy := run_copyTarget (.of (.ident name) s false) hnew hlt harcs hne
  have hthrough : Conjunct.through (.of (.ident name) s false) (a.vertex t) (.of x s false) =
      .of x s false := by
    simp [Conjunct.through, Conjunct.of, h.plain]
  simp only [h.seeds, hknown, List.append_nil, List.map_cons, List.map_nil, hthrough] at hcopy
  rw [addConjunct_of_expr (x := .ident name) rfl]
  show addReference process v (.ident name) _ a = _
  rw [addReference_of_target hresolve hne h.forward hforward h.apart, hcopy]

/-- A chain of names takes a round for each of its targets. -/
theorem addRounds_of_leads (process : Nat → Eval Unit) (rounds : Nat)
    (h : a.Leads (a.vertex v).parent s e x ts) (hfills : a.fills = [])
    (hpaths : (a.vertex v).paths ≠ []) (hforward : (a.vertex v).forward = none)
    (harcs : (a.vertex v).arcs = []) (hs : (a.vertex v).stage = .processing) (hnodup : ts.Nodup)
    (hnew : ∀ t ∈ ts, t ∉ (a.vertex v).copied) (hne : v ∉ ts) :
    addRounds process v (rounds + ts.length) [.of x s false] a =
      addRounds process v rounds [.of e s false]
        (a.modify v fun y => { y with copied := y.copied ++ ts }) := by
  have hlt : v < a.vertices.size := lt_size_of_stage (by rw [hs]; decide)
  induction ts generalizing a x with
  | nil =>
    cases h
    rw [modify_eq_self (by rw [List.append_nil])]
    rfl
  | cons t ts ih =>
    cases h with
    | @step name _ y _ hlink hrest =>
    rw [List.nodup_cons] at hnodup
    rw [List.mem_cons, not_or] at hne
    let f (x : Vertex) : Vertex := { x with copied := x.copied ++ [t] }
    have hfirst := addConjunct_of_link process hlink hfills hpaths hforward harcs
      (hnew t List.mem_cons_self) (Ne.symm hne.1) hlt
    have hb : (a.modify v f).vertex v = f (a.vertex v) := vertex_modify f hlt
    have hround : [Conjunct.of (.ident name) s false].mapM (addConjunct process v) a =
        ([⟨[.of y s false], [], []⟩], a.modify v f) := by
      rw [run_mapM_cons, hfirst]
      rfl
    have hleads : (a.modify v f).Leads ((a.modify v f).vertex v).parent s e y ts := by
      rw [hb]
      refine hrest.imp fun name t x hx => hx.intact (intact_modify_self a v f) ?_ ?_ ?_ ?_
      · rw [hs]; decide
      all_goals rw [hb]
    have hcopied : ∀ u ∈ ts, u ∉ ((a.modify v f).vertex v).copied := by
      intro u hu hmem
      rw [hb] at hmem
      rcases List.mem_append.mp hmem with hmem | hmem
      · exact hnew u (List.mem_cons_of_mem t hu) hmem
      · exact hnodup.1 (List.mem_singleton.mp hmem ▸ hu)
    have hlast := ih hleads hfills (by rw [hb]; exact hpaths) (by rw [hb]; exact hforward)
      (by rw [hb]; exact harcs) (by rw [hb]; exact hs) hnodup.2 hcopied hne.2 (by simpa using hlt)
    rw [modify_modify] at hlast
    have hboth : (fun x : Vertex => { f x with copied := (f x).copied ++ ts }) =
        fun x => { x with copied := x.copied ++ t :: ts } := by
      funext x
      simp [f]
    rw [List.length_cons, ← Nat.add_assoc, addRounds_succ, hround]
    dsimp only
    rw [show [(⟨[.of y s false], [], []⟩ : Yield)].flatMap (·.next) = [.of y s false] from rfl,
      hlast, hboth]
    rfl

/-- A field that names lead from to a literal shows the host data of the literal. -/
theorem exists_shows_of_leads (left : Nat) {paths : List Path} (h : a.Leads p s e x ts)
    (hfills : a.fills = []) (hlt : v < a.vertices.size)
    (hv : a.vertex v = .fresh p paths [.of x s false]) (hpaths : paths ≠ []) (hnodup : ts.Nodup)
    (hne : v ∉ ts) (hlength : ts.length ≤ a.vertices.size) (he : e.Spells j)
    (hc : j.canonical = true) : ∃ b, processAt (left + 1) v a = ((), b) ∧ Intact (· = v) a b ∧
      b.Shows a.vertices.size v j (j.toVal []) ∧ (b.vertex v).paths = paths ∧
      (b.vertex v).seeds = [.of x s false] := by
  have hstart : (a.begin v).vertex v = { a.vertex v with stage := .processing } := vertex_begin hlt
  have has := intact_begin a v
  have hpending : (a.vertex v).stage = .pending := by rw [hv]; rfl
  have hbelow (qs : List Path) : a.hasFillsBelow qs = false := by
    rw [hasFillsBelow, hfills]
    rfl
  let f (y : Vertex) : Vertex := { y with copied := y.copied ++ ts }
  let b := (a.begin v).modify v f
  have hb : b.vertex v = f ((a.begin v).vertex v) := vertex_modify f (by simpa using hlt)
  have hab : Intact (· = v) a b := has.trans (intact_modify_self _ v f)
  obtain ⟨rounds, hrounds⟩ : ∃ rounds, roundLimit (a.begin v) = rounds + 1 + ts.length := by
    refine ⟨roundLimit (a.begin v) - 1 - ts.length, ?_⟩
    have hlimit : a.vertices.size + 1 ≤ roundLimit (a.begin v) := by
      rw [roundLimit, size_begin]
      exact Nat.le_mul_of_pos_left _ (by decide)
    omega
  have hleads : (a.begin v).Leads ((a.begin v).vertex v).parent s e x ts := by
    rw [hstart, hv]
    refine h.imp fun name t x hx => hx.intact has ?_ ?_ ?_ ?_
    · rw [hpending]; decide
    all_goals rw [hstart]
  have hchain := addRounds_of_leads (processAt left) (rounds + 1) hleads (has.fills.trans hfills)
    (by rw [hstart, hv]; exact hpaths) (by rw [hstart, hv]; rfl) (by rw [hstart, hv]; rfl)
    (by rw [hstart])
    hnodup (by rw [hstart, hv]; exact fun _ _ => List.not_mem_nil) hne
  have hspells : Conjunct.Spells (.of e s false) j := ⟨⟨e, he, rfl⟩, hc⟩
  have hnothing (d : Arena) (_ : Intact (· = v) b d) (_ : (d.vertex v).stage = .processing) :
      ∃ kept, addRounds (processAt left) v (rounds + 1) [] d =
        ((kept, []), d.modify v fun x => { x with val := id x.val }) := by
    refine ⟨[], ?_⟩
    rw [modify_eq_self rfl]
    rfl
  obtain ⟨kept, d, hlast, hbd, hd, hlaid⟩ :=
    exists_rounds [] id hab.size hspells (by rw [hb, hstart])
    (by rw [hb, hstart, hv]; rfl) (by rw [hb, hstart, hv]; rfl)
    (by rw [hab.hasFillsBelow]; exact hbelow _) hnothing
  rw [hb, hstart, hv] at hd
  have hval : (d.vertex v).val = j.toVal [] := by
    rw [hd]
    exact j.top_meet_toVal
  have hall :
      addRounds (processAt left) v (roundLimit (a.begin v))
        ((a.begin v).vertex v).seeds (a.begin v) =
      ((kept, []), d) := by
    rw [hrounds, hstart, hv]
    exact hchain.trans hlast
  obtain ⟨c, hrun, hdc, hshows, hcp, hcs⟩ := exists_shows_of_rounds hpending hall
    (Nat.le_trans hab.size hbd.size) (by rw [hd]) hlaid (by rw [hd]; rfl)
    (by rw [(hab.trans hbd).hasFillsBelow]; exact hbelow _) hc
  rw [hval] at hshows
  refine ⟨c, hrun, (hab.trans hbd).trans hdc, hshows, hcp.trans ?_, hcs.trans ?_⟩
  · rw [hd]; rfl
  · rw [hd]; rfl

end Eval

end SchemaMock

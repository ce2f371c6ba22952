import SchemaMock.Proofs.Expr.Braces
import SchemaMock.Proofs.Token.Seams

/-! # Fields within fields

`a: b: e` is short for `a: {b: e}`, however many labels there are. The file with the braces nests
deeper, so that the short one is read wherever it is.
-/

namespace SchemaMock

/-- The name of a field as it is written: one token that may stand as a label, and perhaps a
question mark. -/
structure FieldKey where
  first : Char
  more : List Char
  kind : TokenKind
  optional : Bool
  isLabel : Parser.isLabelKind kind = true
  whole : Token.cut first more = ⟨.token kind, more, []⟩

namespace FieldKey

def mark (k : FieldKey) : String := if k.optional then "?:" else ":"

def text (k : FieldKey) : String := String.ofList (k.first :: k.more) ++ k.mark

def chained : List FieldKey → String → String
  | [], e => e
  | k :: ks, e => k.text ++ " " ++ chained ks e

def braced : List FieldKey → String → String
  | [], e => e
  | [k], e => k.text ++ " " ++ e
  | k :: ks, e => k.text ++ " \x7b " ++ braced ks e ++ " \x7d"

def markFaces (k : FieldKey) : List Face :=
  if k.optional then [(.question, ['?']), (.colon, [':'])] else [(.colon, [':'])]

def faces (k : FieldKey) : List Face := (k.kind, k.first :: k.more) :: k.markFaces

def opening : List FieldKey → List Face
  | [] => []
  | [k] => k.faces
  | k :: ks => k.faces ++ (.openBrace, ['\x7b']) :: opening ks

end FieldKey

namespace Token

open FieldKey

variable {w : List Char} {fs : List Face}

theorem cuts_mark (k : FieldKey) (h : Cuts (' ' :: w) fs) :
    Cuts (k.mark.toList ++ ' ' :: w) (k.markFaces ++ fs) := by
  have hcolon : Cuts (':' :: ' ' :: w) ((.colon, [':']) :: fs) := .token rfl h
  unfold mark markFaces
  split
  · exact .token rfl hcolon
  · exact hcolon

theorem cuts_key (k : FieldKey) (h : Cuts w fs) :
    Cuts (k.text.toList ++ ' ' :: w) (k.faces ++ fs) := by
  have hmark : ∀ d ∈ (k.mark.toList ++ ' ' :: w).head?, isStop d = true := by
    intro d hd
    unfold mark at hd
    split at hd <;> cases hd <;> rfl
  rw [FieldKey.text, String.toList_append, String.toList_ofList, List.append_assoc]
  exact cuts_whole k.whole hmark (cuts_mark k (cuts_blank h))

theorem cuts_chained {e : String} (ks : List FieldKey) (h : Cuts e.toList fs) :
    Cuts (chained ks e).toList (ks.flatMap faces ++ fs) := by
  induction ks with
  | nil => exact h
  | cons k ks ih =>
    have hkey := cuts_key k ih
    rw [← List.append_assoc] at hkey
    simpa [chained] using hkey

/-- What closes the braces may be taken in by a comment. -/
theorem cuts_braced {e : String} {pos : Nat} {ts : List Token}
    (h : tokenizeFrom pos e.toList = .ok ts) (ks : List FieldKey) (n : Nat) :
    ∃ j, Cuts ((braced ks e).toList ++ closers n)
      (opening ks ++ (ts.dropLast.map face ++ closing j)) := by
  induction ks generalizing n with
  | nil => exact cuts_append_closers h n
  | cons k ks ih =>
    cases ks with
    | nil =>
      obtain ⟨j, hj⟩ := cuts_append_closers h n
      refine ⟨j, ?_⟩
      simpa [braced, opening] using cuts_key k hj
    | cons k' ks =>
      obtain ⟨j, hj⟩ := ih (n + 1)
      refine ⟨j, ?_⟩
      have hbrace : Cuts ('\x7b' :: ' ' :: ((braced (k' :: ks) e).toList ++ closers (n + 1)))
          ((.openBrace, ['\x7b']) :: (opening (k' :: ks) ++ (ts.dropLast.map face ++ closing j))) :=
        .token rfl (cuts_blank hj)
      have hkey := cuts_key k hbrace
      simpa [braced, opening, closers_succ] using hkey

end Token

namespace Parser

open Reader

variable {lv : Level} {c : Cursor} {f : Face} {fs : List Face}

/-! ## One field -/

/-- The value of a field: what stands behind the colon, or a struct of the field that begins
there. -/
def fieldValue (lv : Level) : Reader Expr := do
  if (← isLabelStart) || (← isPatternStart) then return .struct [← lv.decl]
  else expr lv

theorem field_eq (lv : Level) : field lv = (do
    let label ← labelOf (← advance)
    let optional ← eat .question
    let _ ← expect .colon
    let x ← fieldValue lv
    return .field label optional x) := by
  unfold field fieldValue
  simp only [bind_assoc]
  refine bind_congr fun _ => bind_congr fun _ => bind_congr fun _ => bind_congr fun _ => ?_
  refine bind_congr fun _ => bind_congr fun _ => ?_
  split <;> simp only [bind_assoc, pure_bind]

theorem fieldValue_of_inner {yes pattern : Bool} (hlabel : isLabelStart c = .ok (yes, c))
    (hpattern : isPatternStart c = .ok (pattern, c)) (h : (yes || pattern) = true) :
    fieldValue lv c = (lv.decl >>= fun d => pure (.struct [d])) c := by
  rw [fieldValue, bind_of_ok _ hlabel, bind_of_ok _ hpattern, if_pos h]

theorem fieldValue_of_expr (hlabel : isLabelStart c = .ok (false, c))
    (hpattern : isPatternStart c = .ok (false, c)) :
    fieldValue lv c = expr lv c := by
  rw [fieldValue, bind_of_ok _ hlabel, bind_of_ok _ hpattern]
  rfl

theorem isPatternStart_of_not (h : c.current.kind ≠ .openBracket) :
    isPatternStart c = .ok (false, c) := by
  rw [isPatternStart, beq_false_of_ne h]
  rfl

/-- The mark of a field is passed over. -/
theorem exists_of_mark {k : FieldKey} (h : c.faces = k.markFaces ++ f :: fs) :
    ∃ s, s.faces = f :: fs ∧ s.deepest = c.deepest ∧
      (c.current.kind = .colon ∨ c.current.kind = .question ∧ c.next.current.kind = .colon) ∧
      ∀ g : Bool → Reader Decl,
        (eat .question >>= fun optional => expect .colon >>= fun _ => g optional) c =
        g k.optional s := by
  unfold FieldKey.markFaces at h
  cases hoptional : k.optional with
  | true =>
    rw [hoptional] at h
    have hnext := Cursor.faces_next h
    have hquestion : c.current.kind = .question := Cursor.kind_of_faces h
    have hcolon : c.next.current.kind = .colon := Cursor.kind_of_faces hnext
    have hdeep : c.next.next.deepest = c.deepest := by rw [deepest_next, deepest_next]
    refine ⟨c.next.next, Cursor.faces_next hnext, hdeep, .inr ⟨hquestion, hcolon⟩, fun g => ?_⟩
    rw [bind_of_ok _ (if_pos hquestion), bind_of_ok _ (expect_of_kind hcolon)]
  | false =>
    rw [hoptional] at h
    have hcolon : c.current.kind = .colon := Cursor.kind_of_faces h
    refine ⟨c.next, Cursor.faces_next h, deepest_next c, .inl hcolon, fun g => ?_⟩
    rw [bind_of_ok _ (eat_of_ne (by rw [hcolon]; exact TokenKind.noConfusion)),
      bind_of_ok _ (expect_of_kind hcolon)]

theorem declBody_label (h : isLabelKind c.current.kind = true) :
    declBody lv c = (isLabelStart >>= fun starts =>
    if starts then field lv else expr lv >>= fun x => pure (.embed x)) c := by
  rw [declBody, current_bind]
  cases hkind : c.current.kind <;> first
    | rfl
    | (rw [hkind] at h; cases h)

/-- A field is its label and then its value. -/
theorem exists_of_key {k : FieldKey} (h : c.faces = k.faces ++ f :: fs) : ∃ s, s.faces = f :: fs ∧
    s.deepest = c.deepest ∧ isLabelStart c = .ok (true, c) ∧ ∀ lv, declBody lv c =
      (ofToken c.current (labelText (k.kind, k.first :: k.more)) >>= fun label =>
        fieldValue lv >>= fun x => pure (.field label k.optional x)) s := by
  have hface : c.current.face = (k.kind, k.first :: k.more) := (List.cons.inj h).1
  have hkind : c.current.kind = k.kind := Cursor.kind_of_faces h
  have hnext : c.next.faces = k.markFaces ++ f :: fs := by
    rw [FieldKey.faces, List.cons_append] at h
    cases hoptional : k.optional with
    | true =>
      rw [FieldKey.markFaces, hoptional] at h ⊢
      exact Cursor.faces_next h
    | false =>
      rw [FieldKey.markFaces, hoptional] at h ⊢
      exact Cursor.faces_next h
  obtain ⟨s, hs, hdeep, hmark, hread⟩ := exists_of_mark hnext
  have hstarts : isLabelStart c = .ok (true, c) := by
    rw [isLabelStart_eq, hkind, k.isLabel]
    obtain hcolon | ⟨hquestion, hcolon⟩ := hmark
    · rw [hcolon]
      rfl
    · rw [hquestion, hcolon]
      rfl
  refine ⟨s, hs, hdeep.trans (deepest_next c), hstarts, fun lv => ?_⟩
  rw [declBody_label (hkind ▸ k.isLabel), bind_of_ok _ hstarts, if_pos rfl, field_eq, advance_bind,
    labelOf_eq, hface]
  cases labelText (k.kind, k.first :: k.more) with
  | ok label =>
    exact hread fun optional => fieldValue lv >>= fun x => pure (.field label optional x)
  | error fault => rfl

/-! ## Fields in braces and without -/

/-- What the second reader gives, with nothing behind it but closing braces, the first gives at the
end of a text. -/
def Shortens {α : Type} (r r' : Reader α) (c c' : Cursor) : Prop :=
  ∀ a d', r' c' = .ok (a, d') → Trails d'.tokens ∧ ∃ d, r c = .ok (a, d) ∧ Ended d.tokens

namespace Shortens

variable {α β : Type} {c' : Cursor}

theorem map {r r' : Reader α} (g : α → β) (h : Shortens r r' c c') :
    Shortens (r >>= fun a => pure (g a)) (r' >>= fun a => pure (g a)) c c' := by
  intro b d' hrun
  obtain ⟨a, s', hr', hpure⟩ := bind_eq_ok hrun
  cases hpure
  obtain ⟨htrails, d, hr, hend⟩ := h a d' hr'
  exact ⟨htrails, d, by rw [bind_of_ok _ hr]; rfl, hend⟩

/-- A field is short where its value is. -/
theorem declBody_of_value {lv' : Level} {k : FieldKey} {s s' : Cursor}
    {x : Except SourceFault Label} {t t' : Token}
    (hc : declBody lv c = (ofToken t x >>= fun label => fieldValue lv >>= fun x =>
      pure (.field label k.optional x)) s)
    (hc' : declBody lv' c' = (ofToken t' x >>= fun label => fieldValue lv' >>= fun x =>
      pure (.field label k.optional x)) s')
    (h : Shortens (fieldValue lv) (fieldValue lv') s s') :
    Shortens (declBody lv) (declBody lv') c c' := by
  intro b d' hrun
  rw [hc'] at hrun
  rw [hc]
  cases x with
  | ok label => exact h.map (fun x => Decl.field label k.optional x) b d' hrun
  | error fault => cases hrun

end Shortens

structure StandsAlone (front : List Face) : Prop where
  ne_eof : ∀ f ∈ front, f.1 ≠ .eof
  reads : ∀ c : Cursor, c.faces = front ++ [(.eof, [])] → c.current.kind ≠ .newline →
    ∃ x d, expr outermost { c with deepest := 0 } = .ok (x, d) ∧ Ended d.tokens

variable {front : List Face} {j : Nat} {c' : Cursor}

theorem closers_of_faces {us : List Token} (h : us.map Token.face = Token.closing j) :
    Closers us := by
  induction j generalizing us with
  | zero =>
    obtain ⟨u, rfl, hu⟩ := List.map_eq_singleton_iff.mp h
    exact .last (congrArg Prod.fst hu)
  | succ j ih =>
    obtain ⟨u, us, rfl, hu, hus⟩ := List.map_eq_cons_iff.mp h
    exact .cons (congrArg Prod.fst hu) (ih hus)

theorem enclosed_of_faces (hfront : ∀ f ∈ front, f.1 ≠ .eof) {ts us : List Token}
    (hts : ts.map Token.face = front ++ [(.eof, [])])
    (hus : us.map Token.face = front ++ Token.closing j) :
    Enclosed ts us := by
  induction front generalizing ts us with
  | nil =>
    obtain ⟨t, rfl, ht⟩ := List.map_eq_singleton_iff.mp hts
    exact .last (congrArg Prod.fst ht) (closers_of_faces hus)
  | cons f front ih =>
    obtain ⟨t, ts, rfl, ht, hts⟩ := List.map_eq_cons_iff.mp hts
    obtain ⟨u, us, rfl, hu, hus⟩ := List.map_eq_cons_iff.mp hus
    obtain ⟨hf, hfront⟩ := List.forall_mem_cons.mp hfront
    have hkind : t.kind = f.1 := congrArg Prod.fst ht
    exact .cons (hkind ▸ hf) (ht.trans hu.symm) (ih hfront hts hus)

/-- An expression by itself does not begin with the label of a pattern, wherever it stands. -/
theorem isPatternStart_of_value {left' : Nat} {x y : Expr} {d d' : Cursor}
    (henclosed : Enclosed c.tokens c'.tokens)
    (hread : expr outermost { c with deepest := 0 } = .ok (x, d)) (hend : Ended d.tokens)
    (hlabel : isLabelStart c' = .ok (false, c'))
    (hrun : fieldValue (level left') c' = .ok (y, d')) :
    isPatternStart c = .ok (false, c) ∧ isPatternStart c' = .ok (false, c') := by
  obtain ⟨yes, hyes, hyes'⟩ := isPatternStart_enclosed henclosed
  cases yes with
  | false => exact ⟨hyes, hyes'⟩
  | true =>
    have hbracket : c'.current.kind = .openBracket := by
      rw [isPatternStart_eq] at hyes'
      exact beq_iff_eq.mp (Bool.and_eq_true_iff.mp (congrArg Prod.fst (Except.ok.inj hyes'))).1
    rw [fieldValue_of_inner hlabel hyes' rfl] at hrun
    obtain ⟨inner, s, hdecl, -⟩ := bind_eq_ok hrun
    cases left' with
    | zero => cases hdecl
    | succ below =>
      obtain ⟨u, s', hreach, hbody⟩ := bind_eq_ok hdecl
      obtain ⟨-, rfl⟩ := reach_eq_ok hreach
      rw [declBody_bracket (c := { c' with deepest := max c'.deepest (level below).depth }) hbracket] at hbody
      obtain ⟨label, s'', hpattern, -⟩ := bind_eq_ok hbody
      -- the expression would end at the colon behind the bracket
      have hpatterned : Patterned c.tokens :=
        ⟨below, { c' with deepest := max c'.deepest (level below).depth }, _, hbracket,
          henclosed, hpattern⟩
      have hmarks := stopsAtMark_pattern maxNesting { c with deepest := 0 } x d hpatterned hread
      exact absurd hmarks (not_marksField_of_ended hend)

theorem shortens_value {left left' : Nat} (h : StandsAlone front) (hle : left' ≤ left)
    (hc : c.faces = front ++ [(.eof, [])]) (hc' : c'.faces = front ++ Token.closing j)
    (hdeep : c.deepest ≤ c'.deepest) :
    Shortens (fieldValue (level left)) (fieldValue (level left')) c c' := by
  intro y d' hrun
  have henclosed : Enclosed c.tokens c'.tokens := enclosed_of_faces h.ne_eof hc hc'
  have hnewline : c.current.kind ≠ .newline := by
    intro hkind
    have hkind' : c'.current.kind = .newline := (henclosed.kind_iff (by decide)).mp hkind
    rw [fieldValue_of_expr (isLabelStart_of_not (by rw [hkind']; rfl))
      (isPatternStart_of_not (by rw [hkind']; exact TokenKind.noConfusion))] at hrun
    exact refuses_expr (refuses_unary left') c' _ (by rw [hkind']; decide) hrun
  obtain ⟨x, d₀, hread, hend⟩ := h.reads c hc hnewline
  have hsame : { c with deepest := 0 }.tokens = c.tokens := rfl
  have hlabel := isLabelStart_same hsame (isLabelStart_of_read hread hend)
  have hlabel' : isLabelStart c' = .ok (false, c') := by
    obtain ⟨yes, hyes, hyes'⟩ := isLabelStart_enclosed henclosed
    cases hlabel.symm.trans hyes
    exact hyes'
  obtain ⟨hpattern, hpattern'⟩ := isPatternStart_of_value henclosed hread hend hlabel' hrun
  rw [fieldValue_of_expr hlabel' hpattern'] at hrun
  rw [fieldValue_of_expr hlabel hpattern]
  have hlift : Lifts Enclosed (expr outermost) (expr (level left)) (expr (level left')) :=
    lifts_expr (lifts_level maxNesting hle)
  obtain ⟨d, e', hread, hread', hsame, hd, -⟩ | ⟨span, n, hlimit⟩ :=
    @hlift { c with deepest := 0 } c c' x d₀ rfl henclosed hdeep hread
  case inr => cases hrun.symm.trans hlimit
  cases hrun.symm.trans hread'
  rw [← hsame] at hend
  exact ⟨.of_ended hd hend, d, hread, hend⟩

theorem startsOperand_of_isLabelKind {k : TokenKind} (h : isLabelKind k = true) :
    k.startsOperand = true := by
  cases k <;> first | rfl | cases h

theorem exists_opening (k : FieldKey) (ks : List FieldKey) :
    ∃ fs, FieldKey.opening (k :: ks) = (k.kind, k.first :: k.more) :: fs := by
  cases ks <;> exact ⟨_, rfl⟩

theorem refuses_decl_isEnd (left : Nat) : Refuses TokenKind.IsEnd (level left).decl :=
  (refuses_decl left).mono fun k hk => by obtain rfl | rfl := hk <;> decide

theorem shortens_decl {left left' : Nat} (hdeep : c.deepest ≤ (level left).depth)
    (hdeep' : c'.deepest ≤ (level left').depth)
    (h : Shortens (declBody (level left)) (declBody (level left')) { c with deepest := (level left).depth }
      { c' with deepest := (level left').depth }) :
    Shortens (level (left + 1)).decl (level (left' + 1)).decl c c' := by
  intro x d' hrun
  rw [decl_succ hdeep'] at hrun
  rw [decl_succ hdeep]
  exact h x d' hrun

/-- The field within the braces is read where it stands behind the colon. -/
theorem shortens_struct {k : FieldKey} {left left' : Nat} (hle : left' ≤ left) {fs' : List Face}
    (hc : c.faces = k.faces ++ f :: fs) (hc' : c'.faces = (.openBrace, ['\x7b']) :: (k.kind, k.first :: k.more) :: fs')
    (hdeep : c.deepest = (level left).depth)
    (h : ∀ below below', below' ≤ below → Shortens (declBody (level below)) (declBody (level below'))
      { c with deepest := (level below).depth } { c'.next with deepest := (level below').depth }) :
    Shortens (fieldValue (level left)) (fieldValue (level left')) c c' := by
  intro x d' hrun
  have hkind : c'.current.kind = .openBrace := Cursor.kind_of_faces hc'
  have hnext : c'.next.current.kind = k.kind := Cursor.kind_of_faces (Cursor.faces_next hc')
  rw [fieldValue_of_expr (isLabelStart_of_not (by rw [hkind]; rfl))
    (isPatternStart_of_not (by rw [hkind]; exact TokenKind.noConfusion))] at hrun
  obtain ⟨below', ds, e, rfl, hdecls, hclose, hstruct⟩ := struct_of_expr hkind hrun
  obtain ⟨left, rfl⟩ :=
    Nat.exists_eq_succ_of_ne_zero (Nat.ne_of_gt (Nat.lt_of_lt_of_le below'.succ_pos hle))
  let start' : Cursor := { c'.next with deepest := (level below').depth }
  have hdecl : Shortens (level (left + 1)).decl (level below').decl c start' := by
    cases below' with
    | zero => exact fun _ _ => nofun
    | succ below' =>
      have hle : below' ≤ left := Nat.le_of_succ_le (Nat.le_of_succ_le_succ hle)
      refine shortens_decl ?_ (level_depth_le below'.le_succ) (h left below' hle)
      rw [hdeep]
      exact level_depth_le left.le_succ
  have hstart : start'.current.kind.startsOperand = true := by
    show c'.next.current.kind.startsOperand = true
    rw [hnext]
    exact startsOperand_of_isLabelKind k.isLabel
  obtain ⟨inner, d, hinner, rfl, -, hclosers⟩ :=
    decls_of_trails hstart (.inl rfl) (refuses_decl_isEnd below')
    (fun x d hx => (hdecl x d hx).1) hdecls
  obtain ⟨-, d, hinner, hend⟩ := hdecl inner d hinner
  have hbehind := hclosers.next hclose
  obtain ⟨rfl, htokens⟩ := hstruct hbehind.heads
  obtain ⟨-, -, -, hlabel, -⟩ := exists_of_key hc
  refine ⟨.closers (htokens ▸ hbehind), d, ?_, hend⟩
  rw [fieldValue_of_inner hlabel (isPatternStart_eq c) rfl, bind_of_ok _ hinner]
  rfl

/-- Where the fields are read in braces they are read without. -/
theorem shortens_declBody (h : StandsAlone front) {k : FieldKey} {ks : List FieldKey}
    {left left' : Nat} (hle : left' ≤ left)
    (hc : c.faces = (k :: ks).flatMap FieldKey.faces ++ (front ++ [(.eof, [])]))
    (hc' : c'.faces = FieldKey.opening (k :: ks) ++ (front ++ Token.closing j))
    (hdeep : c.deepest = (level left).depth) (hdeep' : c'.deepest = (level left').depth) :
    Shortens (declBody (level left)) (declBody (level left')) c c' := by
  induction ks generalizing k left left' c c' with
  | nil =>
    obtain ⟨f, fs, hf⟩ := List.exists_cons_of_ne_nil (show front ++ [(.eof, [])] ≠ [] by simp)
    obtain ⟨f', fs', hf'⟩ :=
      List.exists_cons_of_ne_nil (show front ++ Token.closing j ≠ [] by simp [Token.closing])
    rw [List.flatMap_singleton, hf] at hc
    rw [FieldKey.opening, hf'] at hc'
    obtain ⟨s, hs, hsdeep, -, hread⟩ := exists_of_key hc
    obtain ⟨s', hs', hsdeep', -, hread'⟩ := exists_of_key hc'
    refine .declBody_of_value (hread _) (hread' _)
      (shortens_value h hle (hs.trans hf.symm) (hs'.trans hf'.symm) ?_)
    rw [hsdeep, hsdeep', hdeep, hdeep']
    exact level_depth_le hle
  | cons k' ks ih =>
    rw [List.flatMap_cons, List.append_assoc] at hc
    have hbraces : FieldKey.opening (k :: k' :: ks) =
        k.faces ++ (.openBrace, ['\x7b']) :: FieldKey.opening (k' :: ks) := rfl
    rw [hbraces, List.append_assoc, List.cons_append] at hc'
    obtain ⟨g, gs, hg⟩ : ∃ g gs,
        (k' :: ks).flatMap FieldKey.faces ++ (front ++ [(.eof, [])]) = k'.faces ++ g :: gs := by
      obtain ⟨g, gs, hg⟩ := List.exists_cons_of_ne_nil
        (show ks.flatMap FieldKey.faces ++ (front ++ [(.eof, [])]) ≠ [] by simp)
      exact ⟨g, gs, by rw [List.flatMap_cons, List.append_assoc, hg]⟩
    rw [hg] at hc
    obtain ⟨fs, hopening⟩ := exists_opening k' ks
    rw [hopening, List.cons_append] at hc'
    obtain ⟨s, hs, hsdeep, -, hread⟩ := exists_of_key hc
    obtain ⟨s', hs', hsdeep', -, hread'⟩ := exists_of_key hc'
    refine .declBody_of_value (hread _) (hread' _) ?_
    refine shortens_struct hle hs hs' (hsdeep.trans hdeep) fun below below' hle => ?_
    have hinner : s'.next.faces = FieldKey.opening (k' :: ks) ++ (front ++ Token.closing j) := by
      rw [hopening]
      exact Cursor.faces_next hs'
    exact ih hle (hs.trans hg.symm) hinner rfl rfl

end Parser

open SchemaMock.Parser

/-- The tokens of a text end with the end of it, and only there. -/
theorem faces_of_tokenize {e : String} {ts : List Token} (hts : Token.tokenize e = .ok ts) :
    ts.map Token.face = ts.dropLast.map Token.face ++ [(.eof, [])] ∧
    ∀ f ∈ ts.dropLast.map Token.face, f.1 ≠ .eof := by
  obtain ⟨front, rfl, hall⟩ := (Token.laid_of_tokenizeFrom hts).ended
  rw [List.dropLast_concat, List.map_append, List.forall_mem_map]
  exact ⟨rfl, fun t ht => (hall t ht).1⟩

theorem standsAlone_of_parse {e : String} {x : Expr} {ts : List Token} (hx : Expr.parse e = .ok x)
    (hts : Token.tokenize e = .ok ts) : StandsAlone (ts.dropLast.map Token.face) := by
  obtain ⟨hfaces, hfront⟩ := faces_of_tokenize hts
  refine ⟨hfront, fun c hc hnewline => ?_⟩
  rw [← hfaces] at hc
  have hkind : ∀ t us, Token.tokenize e = .ok (t :: us) → t.kind ≠ .newline := by
    intro t us htus
    cases hts.symm.trans htus
    rwa [show t.kind = c.current.kind from (Cursor.kind_of_faces hc).symm]
  obtain ⟨t, us, d, htus, hread, hend⟩ := Expr.exists_of_parse hx hkind
  cases hts.symm.trans htus
  have hspaced : Spaced false (Cursor.ofTokens (t :: us)).tokens { c with deepest := 0 }.tokens :=
    .of_faces hc.symm (List.cons_ne_nil t us)
  obtain ⟨d', hread', hend'⟩ := expr_alike hspaced rfl hread
  exact ⟨_, d', hread', hend' hend⟩

/-- Fields one within the other are what the short form stands for: where the file with the braces
is read, the one without is read too, and as the same file. -/
theorem SchemaFile.parse_chained (ks : List FieldKey) {e : String} {x : Expr} {file : SchemaFile}
    (hx : Expr.parse e = .ok x) (hfile : SchemaFile.parse (FieldKey.braced ks e) = .ok file) :
    SchemaFile.parse (FieldKey.chained ks e) = .ok file := by
  cases ks with
  | nil => exact hfile
  | cons k ks =>
    obtain ⟨ts, -, hts, -⟩ := run_eq_ok_iff.mp hx
    have halone := standsAlone_of_parse hx hts
    -- the tokens of both files
    obtain ⟨us, hus, hfaces⟩ := Token.cuts_chained (k :: ks) (Token.cuts_of_tokenizeFrom hts) 0
    obtain ⟨j, hbraced⟩ := Token.cuts_braced hts (k :: ks) 0
    obtain ⟨us', hus', hfaces'⟩ := hbraced 0
    rw [show Token.closers 0 = [] from rfl, List.append_nil] at hus'
    rw [(faces_of_tokenize hts).1] at hfaces
    have hc : (Cursor.ofTokens us).faces =
        (k :: ks).flatMap FieldKey.faces ++ (ts.dropLast.map Token.face ++ [(.eof, [])]) :=
      Cursor.faces_ofTokens hfaces
    have hc' : (Cursor.ofTokens us').faces =
        FieldKey.opening (k :: ks) ++ (ts.dropLast.map Token.face ++ Token.closing j) := by
      obtain ⟨fs, hopening⟩ := exists_opening k ks
      rw [hopening] at hfaces' ⊢
      exact Cursor.faces_ofTokens hfaces'
    have hlabel : k.kind.startsOperand = true := startsOperand_of_isLabelKind k.isLabel
    have hstart : (Cursor.ofTokens us).current.kind.startsOperand = true := by
      rwa [Cursor.kind_of_faces hc]
    have hstart' : (Cursor.ofTokens us').current.kind.startsOperand = true := by
      obtain ⟨fs, hopening⟩ := exists_opening k ks
      rw [hopening] at hc'
      rwa [Cursor.kind_of_faces hc']
    have hzero (vs : List Token) : (Cursor.ofTokens vs).deepest ≤ (level 63).depth := by
      cases vs <;> exact Nat.zero_le _
    have hdecl :
        Shortens outermost.decl outermost.decl (Cursor.ofTokens us) (Cursor.ofTokens us') :=
      shortens_decl (hzero us) (hzero us') (shortens_declBody halone (Nat.le_refl 63) hc hc' rfl rfl)
    obtain ⟨vs, s', hvs, hread⟩ := run_eq_ok_iff.mp hfile
    cases hus'.symm.trans hvs
    rw [file_eq hstart'] at hread
    obtain ⟨ds, e', hdecls, hpure⟩ := Reader.bind_eq_ok hread
    cases hpure
    obtain ⟨y, d', hy, rfl, -, -⟩ :=
      decls_of_trails hstart' (.inr rfl) (refuses_decl_isEnd maxNesting)
      (fun x d hx => (hdecl x d hx).1) hdecls
    obtain ⟨-, d, hy, hend⟩ := hdecl y d' hy
    exact SchemaFile.parse_of_decl hus hstart hy hend

def sampleKeys : List FieldKey :=
  [⟨'a', [], .ident, true, rfl, rfl⟩, ⟨'"', ['b', ' ', 'c', '"'], .string, false, rfl, rfl⟩,
    ⟨'#', ['D'], .definition, false, rfl, rfl⟩]

theorem SchemaFile.parse_chained_sample :
    Expr.parse "[1] & _ // x\n" = .ok (.binary .unify (.list [.int 1] none) .top) ∧
    FieldKey.braced sampleKeys "[1] & _ // x\n" =
      "a?: \x7b \"b c\": \x7b #D: [1] & _ // x\n \x7d \x7d" ∧
    FieldKey.chained sampleKeys "[1] & _ // x\n" = "a?: \"b c\": #D: [1] & _ // x\n" ∧
    SchemaFile.parse (FieldKey.chained sampleKeys "[1] & _ // x\n") =
      .ok ⟨none, [], [.field (.regular "a") true
      (.struct [.field (.regular "b c") false (.struct [.field (.definition "D") false
        (.binary .unify (.list [.int 1] none) .top)])])]⟩ := by
  have hx : Expr.parse "[1] & _ // x\n" = .ok (.binary .unify (.list [.int 1] none) .top) :=
    Expr.parse_of_readsAs (by decide +kernel)
  refine ⟨hx, by decide +kernel, by decide +kernel, SchemaFile.parse_chained sampleKeys hx ?_⟩
  exact SchemaFile.parse_of_readsAs (by decide +kernel)

end SchemaMock

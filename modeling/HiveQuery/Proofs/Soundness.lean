import HiveQuery.Proofs.ApplySoundness

/-!
# Refined queries give the same relation

The rules for scalars, and all rules together: a refinement says about runs what its judgement means.
-/

namespace HiveQuery
open HiveQuery.Tree

variable {env : Environment} {k : Mode} {μ : Reads}

/-! ## Scalars -/

section Scalars

variable {total : Bool} {frames frames' : Frames} {group group' : Option (List Row)}

theorem ScalarAgree.of_value {t u : Tree} (select : t.isSelect = false) (number : t.isRowNumber = false)
    (value : Run.Agree total Eq (t.scalar env frames group) (u.scalar env frames' group')) :
    ScalarAgree env total frames frames' group group' t u where
  value := value
  first := by cases t <;> first | exact .of_error | simp [isSelect] at select
  keys := by
    rintro order _ rfl
    simp [isRowNumber] at number

theorem inert_agree {t u : Tree} (h : t.isInert = true) :
    ScalarAgree env total frames frames' group group' t u := by
  cases t <;> first
    | exact .of_value rfl rfl .of_error
    | simp [isInert] at h

theorem query_agree {s s' : Select Tree} (i j : Option Identity)
    (h : Run.Agree total Eq (s.run env frames) (s'.run env frames')) :
    ScalarAgree env total frames frames' group group' (.select s i) (.select s' j) where
  value := by
    rw [scalar, scalar]
    exact h.bind fun r r' _ _ e => .of_ok (by rw [e])
  first := by
    rw [firstValues, firstValues]
    exact h.bind fun r r' _ _ e => .of_ok (by rw [e])
  keys := by rintro _ _ ⟨⟩

namespace ScalarAgree

variable {a b c a' b' c' : Tree}

theorem binary (op : BinaryOp) (left : ScalarAgree env total frames frames' group group' a a')
    (right : ScalarAgree env total frames frames' group group' b b') :
    ScalarAgree env total frames frames' group group' (.binary op a b) (.binary op a' b') := by
  refine .of_value rfl rfl ?_
  rw [scalar, scalar]
  refine left.value.bind fun x x' _ _ hx => right.value.bind fun y y' _ _ hy => ?_
  exact .of_eq (by rw [hx, hy])

theorem unary (op : UnaryOp) (operand : ScalarAgree env total frames frames' group group' a a') :
    ScalarAgree env total frames frames' group group' (.unary op a) (.unary op a') := by
  refine .of_value rfl rfl ?_
  rw [scalar, scalar]
  exact operand.value.bind fun x x' _ _ e => .of_eq (by rw [e])

theorem between (item : ScalarAgree env total frames frames' group group' a a')
    (lower : ScalarAgree env total frames frames' group group' b b')
    (upper : ScalarAgree env total frames frames' group group' c c') :
    ScalarAgree env total frames frames' group group' (.between a b c) (.between a' b' c') := by
  refine .of_value rfl rfl ?_
  rw [scalar, scalar]
  refine item.value.bind fun x x' _ _ hx => lower.value.bind fun y y' _ _ hy => ?_
  refine upper.value.bind fun z z' _ _ hz => ?_
  exact .of_eq (by rw [hx, hy, hz])

theorem isNull (operand : ScalarAgree env total frames frames' group group' a a') :
    ScalarAgree env total frames frames' group group' (.isNull a) (.isNull a') := by
  refine .of_value rfl rfl ?_
  rw [scalar, scalar]
  exact operand.value.bind fun x x' _ _ e => .of_ok (by rw [e])

theorem outerJoined (test test' : Tree) (shape : ScalarAgree env total frames frames' group group' a a') :
    ScalarAgree env total frames frames' group group' (.outerJoined test a) (.outerJoined test' a') := by
  refine .of_value rfl rfl ?_
  rw [scalar, scalar]
  exact shape.value

theorem column {c d : ColumnRef} (links : μ.Links c d) (hframes : FramesMatch total μ frames frames') :
    ScalarAgree env total frames frames' group group' (.column c) (.column d) := by
  refine .of_value rfl rfl ?_
  have h := hframes.lookup? links
  rw [scalar, scalar]
  cases hc : frames.lookup? c with
  | none => exact .of_error
  | some v =>
    obtain ⟨hsome, hsame⟩ := h v hc
    cases hd : frames'.lookup? d with
    | none =>
      rintro _ ⟨⟩
      refine ⟨fun ht => ?_, by rintro _ ⟨⟩⟩
      obtain ⟨w, hw⟩ := hsome ht
      rw [hd] at hw
      cases hw
    | some w => exact .of_ok (hsame w hd)

theorem scalarSubquery (type type' : ScalarType)
    (query : ScalarAgree env total frames frames' none none a a') :
    ScalarAgree env total frames frames' group group' (.scalarSubquery a type) (.scalarSubquery a' type') := by
  refine .of_value rfl rfl ?_
  rw [scalar, scalar]
  exact query.first.bind fun vs vs' _ _ e => .of_ok (by rw [e])

theorem existsSubquery (query : ScalarAgree env total frames frames' none none a a') :
    ScalarAgree env total frames frames' group group' (.existsSubquery a) (.existsSubquery a') := by
  refine .of_value rfl rfl ?_
  rw [scalar, scalar]
  exact query.first.bind fun vs vs' _ _ e => .of_ok (by rw [e])

theorem inSubquery (item : ScalarAgree env total frames frames' group group' a a')
    (query : ∀ v, a.scalar env frames group = .ok v → v.isNull = false →
      ScalarAgree env total frames frames' none none b b') :
    ScalarAgree env total frames frames' group group' (.inSubquery a b) (.inSubquery a' b') := by
  refine .of_value rfl rfl ?_
  rw [scalar, scalar]
  refine item.value.bind fun x x' hx _ e => ?_
  subst e
  cases hnull : x.isNull with
  | true => exact .of_ok rfl
  | false =>
    simp only [Bool.false_eq_true, if_false]
    exact (query x hx hnull).first.bind fun vs vs' _ _ e => .of_ok (by rw [e])

theorem count (kind : AggregateKind) (d d' : Bool) (type type' : ScalarType)
    (hgroup : GroupMatch total μ frames frames' group group') :
    ScalarAgree env total frames frames' group group' (.aggregate kind none d type)
      (.aggregate kind none d' type') := by
  refine .of_value rfl rfl ?_
  cases hgroup with
  | none => exact .of_error
  | some hrows =>
    rw [scalar, scalar]
    exact .of_eq (by rw [hrows.length_eq])

theorem aggregate (kind : AggregateKind) (d : Bool) (type type' : ScalarType)
    (hgroup : GroupMatch total μ frames frames' group group')
    (argument : ∀ {row row'}, row ∈ group.getD [] →
      FramesMatch total μ (row :: frames.tail) (row' :: frames'.tail) →
      ScalarAgree env total (row :: frames.tail) (row' :: frames'.tail) none none a a') :
    ScalarAgree env total frames frames' group group' (.aggregate kind (some a) d type)
      (.aggregate kind (some a') d type') := by
  refine .of_value rfl rfl ?_
  cases hgroup with
  | none => exact .of_error
  | some hrows =>
    rw [scalar, scalar]
    refine (Run.Agree.mapM_eq hrows fun row row' hr hm => ?_).bind fun vs vs' _ _ e => .of_eq (by rw [e])
    exact (argument hr hm).value

theorem rowNumber {order order' : List (SortKey Tree)}
    (keys : List.Forall₂ (fun d d' : SortKey Tree =>
      ScalarAgree env total frames frames' group group' d.value d'.value) order order') :
    ScalarAgree env total frames frames' group group' (.rowNumber order) (.rowNumber order') := by
  refine ⟨.of_error, .of_error, ?_⟩
  rintro _ _ ⟨⟩ ⟨⟩
  exact keyValues_agree keys

end ScalarAgree

end Scalars

theorem inSubquery_holds {t q t' q' : Tree} (item : (Judgement.scalar μ t t').Holds env k)
    (query : (Judgement.scalar μ q q').Holds env k) :
    (Judgement.scalar μ (.inSubquery t q) (.inSubquery t' q')).Holds env k := by
  intro frames frames' group group' hframes hgroup fits
  simp only [keyRanges, fits_append] at fits
  refine .inSubquery (item hframes hgroup fits.1) fun v hv hnull => query hframes .none ?_
  have fquery := fits.2
  rw [hv] at fquery
  simpa only [hnull, Bool.false_eq_true, if_false] using fquery

theorem rowNumber_holds {order order' : List (SortKey Tree)}
    (directions : order'.map SortKey.direction = order.map SortKey.direction)
    (keys : ∀ p ∈ order.zip order', (Judgement.scalar μ p.1.value p.2.value).Holds env k) :
    (Judgement.scalar μ (.rowNumber order) (.rowNumber order')).Holds env k := by
  intro frames frames' group group' hframes hgroup fits
  have hlen : order.length = order'.length := (length_eq_of_map_eq directions).symm
  rw [keyRanges, sortRanges_eq] at fits
  refine .rowNumber (List.forall₂_iff_zip.2 ⟨hlen, fun hp => ?_⟩)
  exact keys _ hp hframes hgroup (fits.of_flatMap (List.of_mem_zip hp).1)

/-! ## All rules -/

/-- Every judgement that is derived holds. -/
theorem Refines.holds {J : Judgement} (h : Refines env k J) : J.Holds env k := by
  induction h with
  | constant μ v => exact fun _ _ _ => .of_value rfl rfl (.of_ok rfl)
  | undefined μ i j => exact fun _ _ _ => .of_value rfl rfl (.of_ok rfl)
  | parameter μ name =>
    intro frames frames' group group' _ _ _
    refine .of_value rfl rfl ?_
    rw [scalar, scalar, name]
    exact .of_eq rfl
  | binary op _ _ left right =>
    intro frames frames' group group' hframes hgroup fits
    simp only [keyRanges, fits_append] at fits
    exact .binary op (left hframes hgroup fits.1) (right hframes hgroup fits.2)
  | unary op _ operand => exact fun hframes hgroup fits => .unary op (operand hframes hgroup fits)
  | between _ _ _ item lower upper =>
    intro frames frames' group group' hframes hgroup fits
    simp only [keyRanges, fits_append] at fits
    exact .between (item hframes hgroup fits.1.1) (lower hframes hgroup fits.1.2)
      (upper hframes hgroup fits.2)
  | isNull _ operand => exact fun hframes hgroup fits => .isNull (operand hframes hgroup fits)
  | outerJoined _ _ shape =>
    exact fun hframes hgroup fits => .outerJoined _ _ (shape hframes hgroup fits)
  | inert μ left right aggregate => exact fun _ _ _ => inert_agree left
  | column links => exact fun hframes _ _ => .column links hframes
  | query i j _ select =>
    intro frames frames' group group' hframes _ fits
    exact query_agree i j (select hframes (Select.fits_of_keyRanges fits)).run
  | scalarSubquery type type' _ query =>
    exact fun hframes _ fits => .scalarSubquery type type' (query hframes .none fits)
  | existsSubquery _ query => exact fun hframes _ fits => .existsSubquery (query hframes .none fits)
  | inSubquery _ _ item query => exact inSubquery_holds item query
  | count μ kind d d' type type' => exact fun _ hgroup _ => .count kind d d' type type' hgroup
  | aggregate kind d type type' _ argument =>
    intro frames frames' group group' _ hgroup fits
    rw [keyRanges] at fits
    exact .aggregate kind d type type' hgroup fun hr hm => argument hm .none (fits.of_flatMap hr)
  | rowNumber directions _ keys => exact rowNumber_holds directions keys
  | clauses form _ _ _ columns _ _ _ source filter group columnsHold skip take =>
    exact fun hframes fits => clauses_agree form filter group (fun p hp => (columns p hp).sameNumbering)
      columnsHold skip take (fun t u ht hu => source t u ht hu hframes (fits.source ht)) hframes fits
  | @ordered top _ _ _ _ clauses directions _ clausesHold keys =>
    exact ordered_holds top clauses.form clausesHold directions keys
  | lifted _ sorted clauses order group source source' reverse delivers clausesHold =>
    exact lifted_holds sorted clauses.form clausesHold order group source source' reverse delivers
  | @emptied top _ _ _ _ _ _ _ clauses unsortable empties clausesHold =>
    exact emptied_holds top clauses.form clausesHold unsortable empties
  | @numbered top _ _ _ _ _ _ _ numbers select => exact numbered_holds top select numbers
  | table top μ a b name => exact table_holds top a b name
  | notSource top μ left right => exact notSource_holds top left
  | @widened top _ _ _ extra i j _ _ plain values total select =>
    exact widened_holds top extra i j select plain values total
  | @joined top _ _ _ kind _ _ _ _ _ _ i j _ _ form _ left right condition =>
    exact joined_holds top kind i j left right form condition
  | @uncorrelated top _ _ _ kind _ _ _ _ i j _ partly apply _ _ left right =>
    exact uncorrelated_holds top kind i j partly apply left right
  | @applied top _ _ _ kind _ _ _ _ _ columns extra i j i' j' applies partly apply _ pulled plain' filter reverse split
      names unnumbered unnumbered' form _ _ directions _ pulls _ left source values keys
      condition =>
    exact applied_holds top kind i j i' j' applies partly apply left
      { pulled, plain', filter, reverse, split, names, unnumbered, unnumbered', form, source, values,
        directions, keys, pulls, condition }
  | plain _ source => exact fun hframes fits => (source hframes fits).rows
  | wrapped i _ partly _ _ reads bare source => exact wrapped_holds i partly source reads bare

/-- Refined queries give the same relation. -/
theorem Refines.run_agree {top : Bool} {μ : Reads} {s s' : Select Tree}
    (h : Refines env k (.select top μ s s'))
    (fits : Fits k (s.keyRanges env k.applies [])) :
    Run.Agree k.total Eq (s.run env []) (s'.run env []) := by
  have hframes : FramesMatch k.total μ [] [] :=
    ⟨fun row hrow => absurd hrow List.not_mem_nil, fun row hrow => absurd hrow List.not_mem_nil,
      fun _ _ _ v hv => by cases hv⟩
  exact (h.holds hframes (Select.fits_of_keyRanges fits)).run

end HiveQuery

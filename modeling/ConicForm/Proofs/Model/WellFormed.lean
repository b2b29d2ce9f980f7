import ConicForm.Proofs.Canonical.Existence
import ConicForm.Proofs.Duality.Cone
import ConicForm.Proofs.Model.Session

/-!
# What models answer is well formed

Every model of a session answers its canonical program, over any scalars and after any calls that
succeeded or failed. It answers its duals if all columns that it has declared are continuous, and
otherwise names the first one that is not. Programs have lists of the lengths that they need, and
records of their own columns.

## Main definitions

* `Block.FirstDiscrete`: the first column that is not continuous
* `ConeModel.WellFormed`, `LinearModel.WellFormed`: what a model answers

## Main results

* `Session.canonical_wellFormed`: the models of a session answer well-formed programs
-/

namespace ConicForm

variable {α : Type} [Scalar α]

/-! ## Columns that are not continuous -/

/-- The first column of blocks one after another that is not continuous, with its type. -/
structure Block.FirstDiscrete (blocks : List Block) (j : Nat) (t : VariableType) : Prop where
  type : (Block.types blocks)[j]? = some t
  discrete : t ≠ .continuous
  before : ∀ i < j, (Block.types blocks)[i]? = some .continuous

namespace Store

variable {s : Store α} {e : Expansion α}

/-- The program is continuous if the declared columns are. -/
theorem types_assembled_of_types (he : ∀ b ∈ e.blocks, b.type = .continuous)
    (hs : ∀ t ∈ Block.types s.blocks, t = .continuous) :
    ∀ t ∈ (s.assembled e).types, t = .continuous := by
  rw [types_assembled_eq]
  refine List.forall_mem_append.mpr ⟨hs, fun t ht => ?_⟩
  obtain ⟨b, hb, rfl⟩ := Block.mem_types_imp ht
  exact he b hb

/-- The dual of the program is not defined if some declared column is not continuous. -/
theorem exists_dualize_assembled_eq_error (he : ∀ b ∈ e.blocks, b.type = .continuous)
    (hs : ¬∀ t ∈ Block.types s.blocks, t = .continuous) :
    ∃ j t, Block.FirstDiscrete s.blocks j t ∧
      (s.assembled e).dualize = .error (.dualUndefined j t) := by
  have hdiscrete : ¬∀ t ∈ (s.assembled e).types, t = .continuous := by
    intro h
    rw [types_assembled_eq] at h
    exact hs (List.forall_mem_append.mp h).1
  obtain ⟨j, t, hj, hne, hbefore, herror⟩ := LinearProgram.exists_dualize_eq_error _ hdiscrete
  rw [types_assembled_eq] at hj hbefore
  have hlt : j < (Block.types s.blocks).length := by
    by_contra hle
    rw [List.getElem?_append_right (Nat.not_lt.mp hle)] at hj
    obtain ⟨b, hb, rfl⟩ := Block.mem_types_imp (List.mem_of_getElem? hj)
    exact hne (he b hb)
  rw [List.getElem?_append_left hlt] at hj
  refine ⟨j, t, ⟨hj, hne, fun i hi => ?_⟩, herror⟩
  have := hbefore i hi
  rwa [List.getElem?_append_left (hi.trans hlt)] at this

end Store

/-! ## Answers -/

/-- What a cone model answers. -/
structure ConeModel.WellFormed (m : ConeModel α) : Prop where
  /-- There is a canonical program. Its first columns are the declared ones, and its records have
  members, which are columns of it. -/
  primal : ∃ p, m.primal.1 = .ok p ∧ p.value.linear.Over m.store.linear.blocks ∧
    ∀ r ∈ p.value.records, r ≠ [] ∧ ∀ j ∈ r, j < p.value.linear.ncols
  /-- There are duals if all declared columns are continuous. -/
  dual : (∀ t ∈ Block.types m.store.linear.blocks, t = .continuous) →
    ∃ l d, m.linearDual.1 = .ok l ∧ m.dual.1 = .ok d ∧ l.value.Consistent ∧
      d.value.linear.Consistent ∧ ∀ r ∈ d.value.records, ∀ j ∈ r, j < d.value.linear.ncols
  /-- Otherwise the first column that is not is the reason why there are none. -/
  undefined : (¬∀ t ∈ Block.types m.store.linear.blocks, t = .continuous) →
    ∃ j t, Block.FirstDiscrete m.store.linear.blocks j t ∧
      m.linearDual.1 = .error (.dualUndefined j t) ∧ m.dual.1 = .error (.dualUndefined j t)

/-- What a linear model answers. -/
structure LinearModel.WellFormed (m : LinearModel α) : Prop where
  /-- There is a canonical program. Its first columns are the declared ones. -/
  primal : ∃ p, m.primal.1 = .ok p ∧ p.value.Over m.store.blocks
  /-- There is a dual if all declared columns are continuous. -/
  dual : (∀ t ∈ Block.types m.store.blocks, t = .continuous) →
    ∃ d, m.dual.1 = .ok d ∧ d.value.Consistent
  /-- Otherwise the first column that is not is the reason why there is none. -/
  undefined : (¬∀ t ∈ Block.types m.store.blocks, t = .continuous) →
    ∃ j t, Block.FirstDiscrete m.store.blocks j t ∧ m.dual.1 = .error (.dualUndefined j t)

theorem ConeModel.Valid.wellFormed {m : ConeModel α} (hm : m.Valid) : m.WellFormed := by
  obtain ⟨e, he, hprogram⟩ := hm.store.exists_coneProgram_scoped
  have hlinear := ConeStore.linearDualProgram_of_ok hprogram
  have hdual := ConeStore.dualProgram_of_ok hprogram
  constructor
  · obtain ⟨p, hp, hvalue⟩ := Handle.exists_of_map_eq_ok (hm.primal_spec.1.trans hprogram)
    refine ⟨p, hp, ?_⟩
    rw [hvalue]
    exact ⟨Store.assembled_over hm.store.linear.laid he, hm.store.records_assembled he⟩
  · intro hc
    have hdualize := LinearProgram.dualize_eq_ok _ (Store.types_assembled_of_types he.types hc)
    obtain ⟨d, hd⟩ :=
      (m.store.assembled e).exists_deriveDual (m.store.assembled e).linear.dualProgram
    obtain ⟨p', l', d', -, hl', hd', -, hlv, hdv⟩ := hm.exists_programs hprogram hdualize hd
    have hconsistent : (m.store.assembled e).linear.dualProgram.Consistent :=
      LinearProgram.dualProgram_consistent Store.assembled_consistent
    refine ⟨l', d', hl', hd', ?_⟩
    rw [hlv, hdv]
    exact ⟨hconsistent, ConeProgram.consistent_deriveDual hconsistent hd,
      ConeProgram.lt_ncols_of_mem_records hd⟩
  · intro hc
    obtain ⟨j, t, hfirst, herror⟩ := Store.exists_dualize_assembled_eq_error he.types hc
    have hl := hlinear.trans herror
    rw [hl] at hdual
    refine ⟨j, t, hfirst, ?_, ?_⟩
    · exact (map_eq_error_iff _).mp (hm.linearDual_spec.1.trans hl)
    · exact (map_eq_error_iff _).mp (hm.dual_spec.1.trans hdual)

theorem LinearModel.Valid.wellFormed {m : LinearModel α} (hm : m.Valid) : m.WellFormed := by
  obtain ⟨e, he, hprogram⟩ := hm.store.exists_linearProgram
  have hdual := Store.dualProgram_of_ok hprogram
  constructor
  · obtain ⟨p, hp, hvalue⟩ := Handle.exists_of_map_eq_ok (hm.primal_spec.1.trans hprogram)
    refine ⟨p, hp, ?_⟩
    rw [hvalue]
    exact Store.assembled_over hm.store.laid he
  · intro hc
    have hdualize := LinearProgram.dualize_eq_ok _ (Store.types_assembled_of_types he.types hc)
    obtain ⟨d, hd, hvalue⟩ :=
      Handle.exists_of_map_eq_ok (hm.dual_spec.1.trans (hdual.trans hdualize))
    refine ⟨d, hd, ?_⟩
    rw [hvalue]
    exact LinearProgram.dualProgram_consistent Store.assembled_consistent
  · intro hc
    obtain ⟨j, t, hfirst, herror⟩ := Store.exists_dualize_assembled_eq_error he.types hc
    exact ⟨j, t, hfirst, (map_eq_error_iff _).mp (hm.dual_spec.1.trans (hdual.trans herror))⟩

/-- What a model of either sort answers. -/
def AnyModel.WellFormed : AnyModel α → Prop
  | linear m => m.WellFormed
  | cone m => m.WellFormed

/-- **Canonical programs and their duals are well formed.** Every model of a session answers its
canonical program, and its duals exactly if all columns that it has declared are continuous. -/
theorem Session.canonical_wellFormed {ms : List (AnyModel α)} (h : Session ms) :
    ∀ m ∈ ms, m.WellFormed := by
  intro m hm
  have hreachable := h.reachable m hm
  cases m with
  | linear m => exact (LinearModel.Reachable.valid hreachable).wellFormed
  | cone m => exact (ConeModel.Reachable.valid hreachable).wellFormed

/-- The blocks of a column of a linear model and of one of a cone model. -/
def switch : Block := ⟨⟨0⟩, 1, .scalar, .binary, none⟩

@[inherit_doc switch] def level : Block := ⟨⟨1⟩, 1, .scalar, .continuous, none⟩

/-- A linear model with a binary column. -/
def switched : LinearModel ℚ :=
  (LinearModel.empty ⟨0⟩ {} none).after (.declare .scalar .binary none)

/-- A cone model with a column and no bound. -/
def unlevelled : ConeModel ℚ :=
  (ConeModel.empty ⟨1⟩ {} none).after (.declare .scalar .continuous none)

/-- A cone model with a column and its bound, which the column of another model was not given. -/
def levelled : ConeModel ℚ :=
  (((ConeModel.empty ⟨1⟩ {} none).after (.declare .scalar .continuous none)).after
    (.subjectTo (.leaf (.bounds (.uniform level .upper (.value 1)))))).after
    (.subjectTo (.leaf (.bounds (.uniform switch .upper (.value 1)))))

theorem session_unlevelled : Session [.linear switched, .cone unlevelled] := by
  have hempty : Session [.linear (.empty ⟨0⟩ {} none : LinearModel ℚ),
      .cone (.empty ⟨1⟩ {} none : ConeModel ℚ)] := by
    refine .create (.create .nil (.linear ..) (by simp)) (.cone ..) ?_
    simp [AnyModel.store, LinearModel.empty, LinearModel.ofStore, ConeModel.empty, Store.empty]
  have hdeclared := @Session.call ℚ _ [] _ [_] (.declare .scalar .binary none) hempty trivial
  exact @Session.call ℚ _ [_] _ [] (.declare .scalar .continuous none) hdeclared trivial

theorem session_mixed : Session [.linear switched, .cone levelled] := by
  have hlevel : level.upper [.value (1 : ℚ)] = .ok (.uniform level .upper (.value 1)) := rfl
  have hswitch : switch.upper [.value (1 : ℚ)] = .ok (.uniform switch .upper (.value 1)) := rfl
  have hbounded := @Session.call ℚ _ [_] _ []
    (.subjectTo (.leaf (.bounds (.uniform level .upper (.value 1))))) session_unlevelled
    (.leaf (.upper (List.mem_flatMap.mpr ⟨_, List.mem_cons_of_mem _ List.mem_cons_self,
      List.mem_cons_of_mem _ List.mem_cons_self⟩) hlevel))
  exact @Session.call ℚ _ [_] _ []
    (.subjectTo (.leaf (.bounds (.uniform switch .upper (.value 1))))) hbounded
    (.leaf (.upper (List.mem_flatMap.mpr ⟨_, List.mem_cons_self,
      List.mem_cons_of_mem _ List.mem_cons_self⟩) hswitch))

theorem canonical_wellFormed_mixed : Session [.linear switched, .cone levelled] ∧
    AnyModel.cone levelled ∈ [AnyModel.linear switched, .cone levelled] ∧
    (∃ p, levelled.primal.1 = .ok p) ∧
    ∃ j t, switched.dual.1 = .error (.dualUndefined j t) := by
  have hcone := session_mixed.canonical_wellFormed (.cone levelled) (by simp)
  have hlinear := session_mixed.canonical_wellFormed (.linear switched) (by simp)
  obtain ⟨p, hp, -⟩ := ConeModel.WellFormed.primal hcone
  obtain ⟨j, t, -, herror⟩ := LinearModel.WellFormed.undefined hlinear (by decide)
  exact ⟨session_mixed, by simp, ⟨p, hp⟩, j, t, herror⟩

end ConicForm

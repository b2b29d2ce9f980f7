import ConicForm.Proofs.Model.Copies

/-!
# Workspaces

A workspace has any number of models of either sort, each created with an owner of its own, and
copies of them and of their bases. All are called in any order, on blocks that any of them has
declared. A copy has the owner of its original, so what a model stores need not be over its own
columns; but it is over finitely many columns, and what a model answers is the program of its store.
Where no copy is made, the workspace is a session, and everything is over the columns of its model.

## Main definitions

* `Workspace`: models and copies of them that calls lead to

## Main results

* `Workspace.exists_within`: what models answer, and the columns that everything in them is over
* `AnyModel.Reachable.session`, `Session.workspace`, `Session.over`: models without copies
-/

namespace ConicForm

variable {α : Type} [Scalar α]

/-- Models that are created with owners of their own, copied, and called in any order. What a call
is given is built from the blocks that all of them have declared by then. -/
inductive Workspace : List (AnyModel α) → Prop
  | nil : Workspace []
  | create {ms m} : Workspace ms → m.New → (∀ k ∈ ms, k.store.id ≠ m.store.id) →
      Workspace (ms ++ [m])
  | clone {ms m} : Workspace ms → m ∈ ms → Workspace (ms ++ [m])
  | base {ms} {m : ConeModel α} : Workspace ms → .cone m ∈ ms → Workspace (ms ++ [.linear m.base])
  | call {pre m post} {c : Call α} : Workspace (pre ++ m :: post) →
      c.Built ((pre ++ m :: post).flatMap fun k => k.store.blocks) →
      Workspace (pre ++ m.after c :: post)

/-- A session is a workspace without copies. -/
theorem Session.workspace {ms : List (AnyModel α)} (h : Session ms) : Workspace ms := by
  induction h with
  | nil => exact .nil
  | create _ hnew hfresh ih => exact .create ih hnew hfresh
  | call _ hc ih => exact .call ih hc

/-- A reachable model is a session of its own. -/
theorem AnyModel.Reachable.session {m : AnyModel α} (hm : m.Reachable) : Session [m] := by
  have hnew : ∀ m : AnyModel α, m.New → Session [m] := fun m hm => .create .nil hm (by simp)
  have hcall : ∀ (m : AnyModel α) (c : Call α), c.Built m.store.blocks → Session [m] →
      Session [m.after c] := fun m c hc h => @Session.call _ _ [] m [] c h (by simpa using hc)
  cases m with
  | linear m =>
    induction hm with
    | empty id settings name => exact hnew _ (.linear id settings name)
    | @after m c _ hc ih => exact hcall (.linear m) c hc ih
  | cone m =>
    induction hm with
    | empty id settings name => exact hnew _ (.cone id settings name)
    | @after m c _ hc ih => exact hcall (.cone m) c hc ih

/-- Without copies, everything is over the columns of its own model. -/
theorem Session.over {ms : List (AnyModel α)} (h : Session ms) {m : AnyModel α} (hm : m ∈ ms) :
    m.coneStore.Over m.store.columnCount := by
  rw [← AnyModel.linear_coneStore]
  exact (h.reachable m hm).valid_coneStore.over

namespace AnyModel

/-- A model whose caches hold what its store gives, and in which everything is over the first `n`
columns of its owner, its own among them. -/
structure Within (n : Nat) (m : AnyModel α) : Prop where
  current : m.Current
  stored : m.coneStore.Over n
  columnCount_le : m.store.columnCount ≤ n

variable {n n' : Nat} {m : AnyModel α}

theorem Within.mono (h : m.Within n) (hn : n ≤ n') : m.Within n' :=
  ⟨h.current, h.stored.mono hn, h.columnCount_le.trans hn⟩

theorem New.within (h : m.New) : m.Within m.store.columnCount := by
  have hvalid := h.reachable.valid_coneStore.over
  rw [linear_coneStore] at hvalid
  exact ⟨h.reachable.current, hvalid, le_rfl⟩

/-- The base of a cone model is over the same columns. -/
theorem Within.base {m : ConeModel α} (h : (cone m).Within n) : (linear m.base).Within n where
  current := ⟨Cache.holds_empty _, Cache.holds_empty _⟩
  stored := h.stored.toCone
  columnCount_le := h.columnCount_le

/-- A call on blocks of models over the first columns leaves a model over these, or over its own if
they become more. -/
theorem Within.after {ms : List (AnyModel α)} (hms : ∀ k ∈ ms, k.Within n) (hm : m ∈ ms)
    {c : Call α} (hc : c.Built (ms.flatMap fun k => k.store.blocks)) :
    (m.after c).Within (max n (m.after c).store.columnCount) := by
  have hown : ∀ b ∈ ms.flatMap fun k => k.store.blocks, b.owner = m.store.id →
      b ∈ (ms.flatMap fun k => k.store.blocks).filter (·.owner = m.store.id) :=
    fun b hb howner => List.mem_filter.mpr ⟨hb, decide_eq_true howner⟩
  have hspanned : Block.Spanned m.store.id n
      ((ms.flatMap fun k => k.store.blocks).filter (·.owner = m.store.id)) := by
    intro b hb
    obtain ⟨hb, howner⟩ := List.mem_filter.mp hb
    obtain ⟨k, hk, hbk⟩ := List.mem_flatMap.mp hb
    have hwithin := hms k hk
    refine ⟨of_decide_eq_true howner, ?_⟩
    exact (spanned_of_over hwithin.stored b hbk).2.trans hwithin.columnCount_le
  refine ⟨(hms m hm).current.after c, ?_, Nat.le_max_right _ _⟩
  rcases after_eq_or_built hown hc with heq | hbuilt
  · rw [heq]
    exact (hms m hm).stored.mono (Nat.le_max_left _ _)
  · have hafter := (hms m hm).current.over_after (hms m hm).stored hspanned hbuilt
    exact hafter.mono (Nat.le_max_left _ _)

end AnyModel

/-- **What models of a workspace answer is the program of their stores**, and everything in them is
over finitely many columns. -/
theorem Workspace.exists_within {ms : List (AnyModel α)} (h : Workspace ms) :
    ∃ n, ∀ m ∈ ms, m.Within n := by
  induction h with
  | nil => exact ⟨0, by simp⟩
  | @create ms m _ hnew _ ih =>
    obtain ⟨n, hms⟩ := ih
    refine ⟨max n m.store.columnCount, List.forall_mem_append.mpr ⟨fun k hk => ?_, ?_⟩⟩
    · exact (hms k hk).mono (Nat.le_max_left _ _)
    · exact List.forall_mem_singleton.mpr (hnew.within.mono (Nat.le_max_right _ _))
  | clone _ hm ih =>
    obtain ⟨n, hms⟩ := ih
    exact ⟨n, List.forall_mem_append.mpr ⟨hms, List.forall_mem_singleton.mpr (hms _ hm)⟩⟩
  | base _ hm ih =>
    obtain ⟨n, hms⟩ := ih
    exact ⟨n, List.forall_mem_append.mpr ⟨hms, List.forall_mem_singleton.mpr (hms _ hm).base⟩⟩
  | @call pre m post c _ hc ih =>
    obtain ⟨n, hms⟩ := ih
    have hafter := AnyModel.Within.after hms (List.mem_append_right _ List.mem_cons_self) hc
    obtain ⟨hpre, hpost⟩ := List.forall_mem_append.mp hms
    refine ⟨_, List.forall_mem_append.mpr ⟨fun k hk => ?_, List.forall_mem_cons.mpr
      ⟨hafter, fun k hk => ?_⟩⟩⟩
    · exact (hpre k hk).mono (Nat.le_max_left _ _)
    · exact (hpost k (List.mem_cons_of_mem _ hk)).mono (Nat.le_max_left _ _)

end ConicForm

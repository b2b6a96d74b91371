import Mathlib.Data.Fintype.EquivFin
import Mathlib.Logic.Relation
import Mathlib.Order.RelClasses
import Mathlib.Order.WellFounded

/-! Processes that wait for locks, where the locks are ordered.

If whoever waits for a lock holds only smaller ones, the locks waited for grow along
every chain of processes, so no chain closes, and of finitely many processes one does not
wait for another.
-/

set_option autoImplicit false

namespace ByteOS.Lib

variable {P L : Type} {awaits holds : P → L → Prop}

/-- `p` waits for a lock that `q` holds. -/
def WaitsFor (awaits holds : P → L → Prop) (p q : P) : Prop := ∃ r, awaits p r ∧ holds q r

section Ordered
variable [Preorder L] (ordered : ∀ p held awaited, holds p held → awaits p awaited → held < awaited)
include ordered

/-- The lock that the last process of a chain holds is not below the one that the first
process waits for. -/
theorem WaitsFor.chain_le {p q : P} (chain : Relation.TransGen (WaitsFor awaits holds) p q) :
    ∃ r r', awaits p r ∧ holds q r' ∧ r ≤ r' := by
  induction chain with
  | single link =>
    obtain ⟨r, awaited, held⟩ := link
    exact ⟨r, r, awaited, held, le_rfl⟩
  | tail _ link ih =>
    obtain ⟨r, r', awaited, held, le⟩ := ih
    obtain ⟨r'', next, held'⟩ := link
    exact ⟨r, r'', awaited, held', le.trans (ordered _ _ _ held next).le⟩

theorem WaitsFor.no_cycle (p : P) : ¬ Relation.TransGen (WaitsFor awaits holds) p p := by
  intro cycle
  obtain ⟨r, r', awaited, held, le⟩ := chain_le ordered cycle
  exact (ordered p r' r held awaited).not_ge le

theorem WaitsFor.exists_last [Finite P] (p : P) :
    ∃ q, Relation.ReflTransGen (WaitsFor awaits holds) p q ∧ ∀ q', ¬ WaitsFor awaits holds q q' := by
  have irreflexive : Std.Irrefl (Relation.TransGen (flip (WaitsFor awaits holds))) := by
    refine ⟨fun q cycle => no_cycle ordered q ?_⟩
    exact Relation.transGen_swap.mp cycle
  have wellFounded : WellFounded (flip (WaitsFor awaits holds)) :=
    Subrelation.wf (fun link => .single link) (Finite.wellFounded_of_trans_of_irrefl
      (Relation.TransGen (flip (WaitsFor awaits holds))))
  induction p using wellFounded.induction with
  | _ p ih =>
    by_cases waiting : ∃ q, WaitsFor awaits holds p q
    · obtain ⟨q, link⟩ := waiting
      obtain ⟨last, chain, stops⟩ := ih q link
      exact ⟨last, .head link chain, stops⟩
    · exact ⟨p, .refl, not_exists.mp waiting⟩

end Ordered

end ByteOS.Lib

import Mathlib.Algebra.BigOperators.Group.Finset.Piecewise
import Mathlib.Algebra.Order.Group.Multiset

/-! What stands on the places of a finite board, all places together. -/

namespace AliluOS.Lib

variable {ι β : Type*} [Fintype ι] [DecidableEq ι]

def tally (f : ι → Multiset β) : Multiset β := ∑ i, f i

theorem tally_update (f : ι → Multiset β) (i : ι) (b : Multiset β) :
    tally (Function.update f i b) + f i = tally f + b := by
  unfold tally
  rw [Finset.sum_update_of_mem (Finset.mem_univ i), Finset.sdiff_singleton_eq_erase,
    ← Finset.add_sum_erase _ f (Finset.mem_univ i)]
  ac_rfl

/-- A move to `j` that leaves `i` empty loses what stood at `j`, and nothing else; `i` and
`j` may be the same place. -/
theorem tally_move (f : ι → Multiset β) (i j : ι) :
    tally (Function.update (Function.update f j (f i)) i 0) + f j = tally f := by
  have hsource : Function.update f j (f i) i = f i := by
    rcases eq_or_ne i j with rfl | hne
    · exact Function.update_self ..
    · exact Function.update_of_ne hne ..
  have hclear := tally_update (Function.update f j (f i)) i 0
  have harrive := tally_update f j (f i)
  rw [hsource, add_zero] at hclear
  rw [← hclear, add_right_comm] at harrive
  exact add_right_cancel harrive

end AliluOS.Lib

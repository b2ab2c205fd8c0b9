import Mathlib.Data.List.Basic

/-! I/O ports. A device takes every write to a port and looks at those that are its own. -/

namespace AliluOS.Ports

structure Out where
  port : UInt16
  value : UInt8
deriving DecidableEq

variable {σ : Type}

def feed (device : σ → Out → σ) (s : σ) (outs : List Out) : σ := outs.foldl device s

variable (device : σ → Out → σ) (s : σ)

@[simp] theorem feed_nil : feed device s [] = s := rfl

@[simp] theorem feed_cons (out : Out) (outs : List Out) :
    feed device s (out :: outs) = feed device (device s out) outs := rfl

theorem feed_append (outs outs' : List Out) :
    feed device s (outs ++ outs') = feed device (feed device s outs) outs' := List.foldl_append

theorem feed_of_foreign {outs : List Out} (h : ∀ s, ∀ out ∈ outs, device s out = s) :
    feed device s outs = s := by
  induction outs with
  | nil => rfl
  | cons out outs ih =>
    rw [feed_cons, h s out List.mem_cons_self]
    exact ih fun s out hout => h s out (List.mem_cons_of_mem _ hout)

end AliluOS.Ports

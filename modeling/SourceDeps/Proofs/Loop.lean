import Mathlib.Data.PFun

namespace SourceDeps

variable {σ α : Type} {step : σ → Part (α ⊕ σ)} {s s' : σ} {a : α}

/-- Steps are taken from state to state until one of them gives a result. Neither a step nor the
whole need come to an end. -/
def stepwise (step : σ → Part (α ⊕ σ)) : σ →. α := PFun.fix step

theorem stepwise_done (h : step s = Part.some (.inl a)) : stepwise step s = Part.some a :=
  Part.eq_some_iff.mpr (PFun.fix_stop (Part.eq_some_iff.mp h))

theorem stepwise_next (h : step s = Part.some (.inr s')) : stepwise step s = stepwise step s' :=
  PFun.fix_fwd_eq (Part.eq_some_iff.mp h)

end SourceDeps

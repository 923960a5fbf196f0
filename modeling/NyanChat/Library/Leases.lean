import Mathlib.Logic.Basic

/-!
# Leased addresses

Addresses are given to holders, and a holder hands out references to its address (`issue`).  The references are kept
honest when an address with references of others is not given away (`reassign`): whoever stands at the address of a
reference is the holder it was issued for.
-/

namespace Leases

variable {ι κ : Type*} {holder holder' : ι → Option κ} {refs refs' : List (ι × κ)}

/-- The address of a reference is held by the one it was issued for, or by nobody. -/
def Honest (holder : ι → Option κ) (refs : List (ι × κ)) : Prop := ∀ r ∈ refs, ∀ x, holder r.1 = some x → x = r.2

/-- A reference that may be made: one there is already, or one to the address of its holder. -/
def Issued (holder : ι → Option κ) (refs : List (ι × κ)) (r : ι × κ) : Prop := r ∈ refs ∨ holder r.1 = some r.2

theorem Honest.nil : Honest holder [] := fun _ h => absurd h List.not_mem_nil

/-- References are copied, given up, and issued by holders. -/
theorem Honest.issue (h : Honest holder refs) (hrefs : ∀ r ∈ refs', Issued holder refs r) : Honest holder refs' := by
  intro r hr x hx
  rcases hrefs r hr with hold | hself
  · exact h r hold x hx
  · exact Option.some.inj (hx.symm.trans hself)

/-- An address changes its holder when it is given up, or when there is no reference to it. -/
theorem Honest.reassign (h : Honest holder refs)
    (hholder : ∀ r ∈ refs, ∀ x, holder' r.1 = some x → holder r.1 = some x) : Honest holder' refs :=
  fun r hr x hx => h r hr x (hholder r hr x hx)

end Leases

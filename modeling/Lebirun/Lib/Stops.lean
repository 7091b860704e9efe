import Mathlib

namespace Machine
set_option autoImplicit true

variable {σ ε α : Type*} {I I' : σ → Prop} {J J' : ε → σ → Prop}

/-- What holds of the state when a computation goes on (`I`), and when it stops early (`J`). -/
def Post (I : σ → Prop) (J : ε → σ → Prop) : Except (ε × σ) σ → Prop
  | .ok s => I s
  | .error (e, s) => J e s

theorem Post.ok (h : I s) : Post I J (.ok s : Except (ε × σ) σ) := h

theorem Post.error (h : J e s) : Post I J (.error (e, s)) := h

theorem Post.mono (h : Post I J r) (hI : ∀ s, I s → I' s) (hJ : ∀ e s, J e s → J' e s) :
    Post I' J' r := by
  cases r with
  | ok s => exact hI s h
  | error p => exact hJ p.1 p.2 h

theorem Post.bind (h : Post I J r) (hf : ∀ s, I s → Post I' J (f s)) : Post I' J (r >>= f) := by
  cases r with
  | ok s => exact hf s h
  | error p => exact h

end Machine

import Mathlib
import AddingCalculator.Diagnostic

namespace AddingCalculator

section

variable {ε α β : Type}

theorem bind_eq_ok {x : Except ε α} {f : α → Except ε β} {b : β} :
    x >>= f = .ok b ↔ ∃ a, x = .ok a ∧ f a = .ok b := by
  cases x <;> simp [bind, Except.bind]

theorem bind_eq_error {x : Except ε α} {f : α → Except ε β} {e : ε} :
    x >>= f = .error e ↔ x = .error e ∨ ∃ a, x = .ok a ∧ f a = .error e := by
  cases x <;> simp [bind, Except.bind]

theorem ok_bind (a : α) (f : α → Except ε β) : (Except.ok a >>= f) = f a := rfl

theorem map_eq_ok {x : Except ε α} {f : α → β} {b : β} : x.map f = .ok b ↔ ∃ a, x = .ok a ∧ f a = b := by
  cases x <;> simp [Except.map]

theorem map_eq_error {x : Except ε α} {f : α → β} {e : ε} : x.map f = .error e ↔ x = .error e := by
  cases x <;> simp [Except.map]

theorem cases_of_map_eq {x y : Except ε α} {f : α → β} (h : x.map f = y.map f) :
    (∃ e, x = .error e ∧ y = .error e) ∨ ∃ a b, x = .ok a ∧ y = .ok b ∧ f a = f b := by
  cases x <;> cases y <;> simp_all [Except.map]

theorem exists_of_toOption {x : Except ε α} {f : α → β} {b : β} (h : x.toOption.map f = some b) :
    ∃ a, x = .ok a ∧ f a = b := by
  cases x with
  | error e => cases h
  | ok a => exact ⟨a, rfl, Option.some.inj h⟩

theorem foldlM_append_eq_ok {f : β → α → Except ε β} {xs ys : List α} {b d : β} :
    (xs ++ ys).foldlM f b = .ok d ↔ ∃ c, xs.foldlM f b = .ok c ∧ ys.foldlM f c = .ok d := by
  rw [List.foldlM_append, bind_eq_ok]

theorem foldlM_concat_eq_ok {f : β → α → Except ε β} {xs : List α} {x : α} {b d : β} :
    (xs ++ [x]).foldlM f b = .ok d ↔ ∃ c, xs.foldlM f b = .ok c ∧ f c x = .ok d := by
  simp only [foldlM_append_eq_ok, List.foldlM_cons, List.foldlM_nil, bind_pure]

theorem exists_of_foldlM_error {f : β → α → Except ε β} {xs : List α} {b : β} {e : ε} (h : xs.foldlM f b = .error e) :
    ∃ ys x zs c, xs = ys ++ x :: zs ∧ ys.foldlM f b = .ok c ∧ f c x = .error e := by
  induction xs generalizing b with
  | nil => cases h
  | cons x xs ih =>
    rcases bind_eq_error.mp h with h | ⟨c, hc, h⟩
    · exact ⟨[], x, xs, b, rfl, rfl, h⟩
    · obtain ⟨ys, y, zs, d, rfl, hd, hy⟩ := ih h
      exact ⟨x :: ys, y, zs, d, rfl, bind_eq_ok.mpr ⟨c, hc, hd⟩, hy⟩

end

section

variable {σ α β : Type}

theorem run_bind (x : ExceptT Diagnostic (StateM σ) α) (f : α → ExceptT Diagnostic (StateM σ) β) (s : σ) :
    (x >>= f).run s = match x.run s with
      | (.ok a, s') => (f a).run s'
      | (.error e, s') => (.error e, s') := by
  simp only [ExceptT.run, bind, ExceptT.bind, ExceptT.mk, StateT.bind, ExceptT.bindCont]
  rcases x s with ⟨r, s'⟩
  cases r <;> rfl

theorem run_get (f : σ → ExceptT Diagnostic (StateM σ) α) (s : σ) :
    ((get : ExceptT Diagnostic (StateM σ) σ) >>= f).run s = (f s).run s := rfl

theorem discard_bind (x : ExceptT Diagnostic (StateM σ) α) (f : Unit → ExceptT Diagnostic (StateM σ) β) :
    (discard x >>= f) = x >>= fun _ => f () := by
  simp only [discard, Functor.discard, map_const, Function.comp_apply, bind_map_left, Function.const_apply]

theorem run_discard (x : ExceptT Diagnostic (StateM σ) α) (s : σ) :
    (discard x).run s = match x.run s with | (r, s') => (r.map fun _ => (), s') := by
  rw [← bind_pure (discard x), discard_bind, run_bind]
  rcases x.run s with ⟨r, s'⟩
  cases r <;> rfl

end

end AddingCalculator

import Munux.Lib.Outcome

/-!
# Computations with queries

A computation that asks questions on its way, as a tree: it ends with an outcome, or it asks and
goes on with what it is answered. The same computation can be run

* against a function that has all the answers (`answer`), which makes it a plain outcome;
* against a handler with a state (`run`): a cache, a device.

Two induction principles compare them. `run_eq_answer` is for a handler that answers by the function
as long as a budget lasts, and a computation spends one unit for each query (`cost`). `run_sound` is
for a handler that depends on an environment, of which only the finished run says whether it
behaved.
-/

namespace Munux

/-- A computation that asks questions in `Q` and is answered in `A`. -/
inductive Queries (Q A α : Type) where
  | ret (o : Outcome α)
  | ask (q : Q) (k : A → Queries Q A α)

namespace Queries

variable {Q A α β σ δ : Type}

/-- Sequencing. -/
def bind : Queries Q A α → (α → Queries Q A β) → Queries Q A β
  | ret (.ok a), f => f a
  | ret .panic, _ => ret .panic
  | ret .diverge, _ => ret .diverge
  | ask q k, f => ask q fun a => bind (k a) f

instance : Monad (Queries Q A) where
  pure a := ret (.ok a)
  bind := bind

/-- A step without a question. -/
instance : MonadLift Outcome (Queries Q A) := ⟨ret⟩

/-- Ask, and return the answer. -/
def query (q : Q) : Queries Q A A := ask q fun a => ret (.ok a)

/-- The outcome when `f` has the answers. -/
def answer (f : Q → A) : Queries Q A α → Outcome α
  | ret o => o
  | ask q k => answer f (k (f q))

/-- How many questions are asked of `f`. -/
def cost (f : Q → A) : Queries Q A α → Nat
  | ret _ => 0
  | ask q k => cost f (k (f q)) + 1

/-- The outcome when `h` answers, with its state. -/
def run (h : Q → σ → Outcome (A × σ)) : Queries Q A α → σ → Outcome (α × σ)
  | ret o, s => o >>= fun a => .ok (a, s)
  | ask q k, s => h q s >>= fun r => run h (k r.1) r.2

section Basic

variable {f : Q → A} {h : Q → σ → Outcome (A × σ)} {p : Queries Q A α} {g : α → Queries Q A β}

@[simp] theorem answer_pure (a : α) : answer f (pure a : Queries Q A α) = .ok a := rfl

@[simp] theorem answer_ret (o : Outcome α) : answer f (ret o) = o := rfl

@[simp] theorem answer_lift (o : Outcome α) :
    answer f (liftM o : Queries Q A α) = o := rfl

@[simp] theorem answer_query (q : Q) : answer f (query q) = .ok (f q) := rfl

@[simp] theorem answer_bind (p : Queries Q A α) (g : α → Queries Q A β) :
    answer f (p >>= g) = (answer f p >>= fun a => answer f (g a)) := by
  induction p with
  | ret o => cases o <;> rfl
  | ask q k ih => exact ih (f q)

theorem answer_foldlM (step : β → α → Queries Q A β) (l : List α) (b : β) :
    answer f (l.foldlM step b) = l.foldlM (fun b a => answer f (step b a)) b := by
  induction l generalizing b with
  | nil => rfl
  | cons a l ih =>
      rw [List.foldlM_cons, List.foldlM_cons, answer_bind]
      simp only [ih]

@[simp] theorem answer_ite (c : Prop) [Decidable c] (p q : Queries Q A α) :
    answer f (if c then p else q) = if c then answer f p else answer f q := by
  split <;> rfl

@[simp] theorem run_ret (o : Outcome α) (s : σ) :
    run h (ret o) s = (o >>= fun a => .ok (a, s)) := rfl

theorem run_ask (q : Q) (k : A → Queries Q A α) (s : σ) :
    run h (ask q k) s = (h q s >>= fun r => run h (k r.1) r.2) := rfl

@[simp] theorem run_pure (a : α) (s : σ) : run h (pure a) s = .ok (a, s) := rfl

@[simp] theorem run_lift (o : Outcome α) (s : σ) :
    run h (liftM o : Queries Q A α) s = (o >>= fun a => .ok (a, s)) := rfl

@[simp] theorem run_query (q : Q) (s : σ) : run h (query q) s = h q s := by
  simp only [query, run_ask, run_ret, Outcome.ok_bind]
  cases h q s <;> rfl

@[simp] theorem run_bind (p : Queries Q A α) (g : α → Queries Q A β) (s : σ) :
    run h (p >>= g) s = (run h p s >>= fun r => run h (g r.1) r.2) := by
  induction p generalizing s with
  | ret o => cases o <;> rfl
  | ask q k ih =>
      change (h q s >>= fun r => run h (k r.1 >>= g) r.2) = _
      simp only [ih, run_ask]
      cases h q s <;> rfl

end Basic

/-! ## Counting questions -/

section Cost

variable {f : Q → A} {p : Queries Q A α} {g : α → Queries Q A β} {m n : Nat}

@[simp] theorem cost_pure (a : α) : cost f (pure a : Queries Q A α) = 0 := rfl

@[simp] theorem cost_lift (o : Outcome α) : cost f (liftM o : Queries Q A α) = 0 := rfl

@[simp] theorem cost_query (q : Q) : cost f (query q) = 1 := rfl

/-- The second half is asked only if the first one returns. -/
theorem cost_bind_le (hp : cost f p ≤ m) (hg : ∀ a, answer f p = .ok a → cost f (g a) ≤ n) :
    cost f (p >>= g) ≤ m + n := by
  induction p generalizing m with
  | ret o =>
      cases o with
      | ok a => exact (hg a rfl).trans (Nat.le_add_left n m)
      | panic => exact Nat.zero_le _
      | diverge => exact Nat.zero_le _
  | ask q k ih =>
      obtain ⟨j, rfl⟩ := Nat.exists_eq_add_one_of_ne_zero (Nat.ne_of_gt (Nat.lt_of_lt_of_le
        (Nat.succ_pos _) hp))
      have hrest := ih (f q) (Nat.le_of_succ_le_succ hp) hg
      rw [Nat.add_right_comm]
      exact Nat.succ_le_succ hrest

/-- Nothing is asked before `g`. -/
theorem cost_lift_bind_le {o : Outcome α} (hg : ∀ a, o = .ok a → cost f (g a) ≤ n) :
    cost f ((liftM o : Queries Q A α) >>= g) ≤ n :=
  (cost_bind_le (p := (liftM o : Queries Q A α)) (Nat.le_refl 0) hg).trans (Nat.zero_add n).le

theorem cost_foldlM_le {step : β → α → Queries Q A β} {l : List α}
    (hstep : ∀ b, ∀ a ∈ l, cost f (step b a) ≤ n) (b : β) :
    cost f (l.foldlM step b) ≤ l.length * n := by
  induction l generalizing b with
  | nil => exact Nat.zero_le _
  | cons a l ih =>
      rw [List.foldlM_cons, List.length_cons, Nat.succ_mul, Nat.add_comm]
      exact cost_bind_le (hstep b a List.mem_cons_self) fun b' _ =>
        ih (fun b a ha => hstep b a (List.mem_cons_of_mem _ ha)) b'

end Cost

/-! ## Comparing runs -/

section Compare

variable {f : Q → A} {h : Q → σ → Outcome (A × σ)}

/-- **Within its budget**, a handler that answers by `f` computes the same, and keeps the rest. -/
theorem run_eq_answer {I : Nat → σ → Prop}
    (hstep : ∀ n q s, I (n + 1) s → ∃ s', h q s = .ok (f q, s') ∧ I n s')
    (p : Queries Q A α) {n : Nat} {s : σ} (hI : I (cost f p + n) s) :
    ∃ s', run h p s = (answer f p >>= fun a => .ok (a, s')) ∧ I n s' := by
  induction p generalizing s with
  | ret o => exact ⟨s, rfl, by rwa [cost, Nat.zero_add] at hI⟩
  | ask q k ih =>
      rw [cost, Nat.add_right_comm] at hI
      obtain ⟨s₁, hcall, hI₁⟩ := hstep _ q s hI
      obtain ⟨s', hrun, hI'⟩ := ih (f q) hI₁
      refine ⟨s', ?_, hI'⟩
      rw [run_ask, hcall, Outcome.ok_bind, hrun]
      rfl

/-- What one sees of an environment: `M` relates a state of the handler to the later ones, and
`E d s d' s'` says that between `s` and `s'` the environment went from `d` to `d'`. -/
structure Observes (M : σ → σ → Prop) (E : δ → σ → δ → σ → Prop) : Prop where
  refl : ∀ s, M s s
  trans : ∀ {s s₁ s'}, M s s₁ → M s₁ s' → M s s'
  still : ∀ {d d' s}, E d s d' s → d' = d
  split : ∀ {d s s₁ d' s'}, M s s₁ → M s₁ s' → E d s d' s' → ∃ d₁, E d s d₁ s₁ ∧ E d₁ s₁ d' s'

theorem run_mono {M : σ → σ → Prop} {E : δ → σ → δ → σ → Prop} (hobs : Observes M E)
    (hcall : ∀ {q s a s₁}, h q s = .ok (a, s₁) → M s s₁) (p : Queries Q A α) {s s' : σ} {a : α}
    (hrun : run h p s = .ok (a, s')) : M s s' := by
  induction p generalizing s with
  | ret o =>
      obtain ⟨b, -, hb⟩ := Outcome.bind_eq_ok.1 hrun
      obtain ⟨-, rfl⟩ := Prod.mk.inj (Outcome.ok.inj hb)
      exact hobs.refl s
  | ask q k ih =>
      obtain ⟨⟨b, s₁⟩, hq, hk⟩ := Outcome.bind_eq_ok.1 hrun
      exact hobs.trans (hcall hq) (ih b hk)

/-- **Against an environment** in state `d`: if every call that the environment served is answered
by `f`, then so is a whole run that it served. -/
theorem run_sound {M : σ → σ → Prop} {E : δ → σ → δ → σ → Prop} (hobs : Observes M E)
    (hcall : ∀ {q s a s₁}, h q s = .ok (a, s₁) → M s s₁) {J : δ → σ → Prop}
    (hstep : ∀ {d s q a d₁ s₁}, J d s → h q s = .ok (a, s₁) → E d s d₁ s₁ → a = f q ∧ J d₁ s₁)
    (p : Queries Q A α) {d d' : δ} {s s' : σ} {a : α} (hJ : J d s)
    (hrun : run h p s = .ok (a, s')) (hE : E d s d' s') : answer f p = .ok a ∧ J d' s' := by
  induction p generalizing d s with
  | ret o =>
      obtain ⟨b, ho, hb⟩ := Outcome.bind_eq_ok.1 hrun
      obtain ⟨rfl, rfl⟩ := Prod.mk.inj (Outcome.ok.inj hb)
      exact ⟨ho, hobs.still hE ▸ hJ⟩
  | ask q k ih =>
      obtain ⟨⟨b, s₁⟩, hq, hk⟩ := Outcome.bind_eq_ok.1 hrun
      obtain ⟨d₁, hE₁, hE₂⟩ := hobs.split (hcall hq) (run_mono hobs hcall (k b) hk) hE
      obtain ⟨rfl, hJ₁⟩ := hstep hJ hq hE₁
      exact ih (f q) hJ₁ hk hE₂

end Compare

end Queries

end Munux

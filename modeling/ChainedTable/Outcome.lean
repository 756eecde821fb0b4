import ChainedTable.Fault

set_option autoImplicit false

/-!
Outcomes of operations on a state. An operation that stops with a fault still leaves a state, and
the next operation runs on it, so both constructors carry one.
-/

namespace ChainedTable

inductive Outcome (σ β : Type) where
  | ok (value : β) (state : σ)
  | fail (fault : Fault) (state : σ)

variable {σ τ β γ : Type}

def Outcome.state : Outcome σ β → σ
  | ok _ s => s
  | fail _ s => s

def Outcome.result : Outcome σ β → Except Fault β
  | ok b _ => .ok b
  | fail f _ => .error f

@[inline] def Outcome.bind (o : Outcome σ β) (f : β → σ → Outcome σ γ) : Outcome σ γ :=
  match o with
  | ok b s => f b s
  | fail e s => fail e s

@[inline] def Outcome.map (o : Outcome σ β) (f : β → γ) : Outcome σ γ :=
  match o with
  | ok b s => ok (f b) s
  | fail e s => fail e s

@[inline] def Outcome.mapState (o : Outcome σ β) (f : σ → τ) : Outcome τ β :=
  match o with
  | ok b s => ok b (f s)
  | fail e s => fail e (f s)

@[inline] def Outcome.ofExcept (r : Except Fault β) (s : σ) : Outcome σ β :=
  match r with
  | .ok b => ok b s
  | .error f => fail f s

section
variable (b : β) (e : Fault) (s : σ) (f : β → σ → Outcome σ γ) (g : β → γ) (h : σ → τ)

@[simp] theorem Outcome.state_ok : (ok b s).state = s := rfl
@[simp] theorem Outcome.state_fail : (fail e s : Outcome σ β).state = s := rfl
@[simp] theorem Outcome.result_ok : (ok b s).result = .ok b := rfl
@[simp] theorem Outcome.result_fail : (fail e s : Outcome σ β).result = .error e := rfl
@[simp] theorem Outcome.bind_ok : (ok b s).bind f = f b s := rfl
@[simp] theorem Outcome.bind_fail : (fail e s : Outcome σ β).bind f = fail e s := rfl
@[simp] theorem Outcome.map_ok : (ok b s).map g = ok (g b) s := rfl
@[simp] theorem Outcome.map_fail : (fail e s : Outcome σ β).map g = fail e s := rfl
@[simp] theorem Outcome.mapState_ok : (ok b s).mapState h = ok b (h s) := rfl
@[simp] theorem Outcome.mapState_fail :
    (fail e s : Outcome σ β).mapState h = fail e (h s) := rfl
@[simp] theorem Outcome.ofExcept_ok : ofExcept (.ok b) s = ok b s := rfl
@[simp] theorem Outcome.ofExcept_error : (ofExcept (.error e) s : Outcome σ β) = fail e s := rfl

end

@[simp] theorem Outcome.state_map (o : Outcome σ β) (g : β → γ) : (o.map g).state = o.state := by
  cases o <;> rfl

theorem Outcome.result_map (o : Outcome σ β) (g : β → γ) :
    (o.map g).result = o.result.map g := by cases o <;> rfl

@[simp] theorem Outcome.state_mapState (o : Outcome σ β) (h : σ → τ) :
    (o.mapState h).state = h o.state := by cases o <;> rfl

@[simp] theorem Outcome.result_mapState (o : Outcome σ β) (h : σ → τ) :
    (o.mapState h).result = o.result := by cases o <;> rfl

@[simp] theorem Outcome.state_ofExcept (r : Except Fault β) (s : σ) : (ofExcept r s).state = s := by
  cases r <;> rfl

@[simp] theorem Outcome.result_ofExcept (r : Except Fault β) (s : σ) :
    (ofExcept r s).result = r := by cases r <;> rfl

theorem Outcome.bind_assoc {δ : Type} (o : Outcome σ β) (f : β → σ → Outcome σ γ)
    (g : γ → σ → Outcome σ δ) : (o.bind f).bind g = o.bind fun b s => (f b s).bind g := by
  cases o <;> rfl

section
variable {κ : Type} (step : σ → κ → Outcome σ β) (s : σ) (k : κ) (ks ls : List κ)

/-- The state after these steps. A run goes on after a fault, on the state that the fault left. -/
def Outcome.run : σ := ks.foldl (fun s k => (step s k).state) s

def Outcome.results (step : σ → κ → Outcome σ β) : σ → List κ → List (Except Fault β)
  | _, [] => []
  | s, k :: ks => (step s k).result :: results step (step s k).state ks

@[simp] theorem Outcome.run_nil : run step s [] = s := rfl

theorem Outcome.run_cons : run step s (k :: ks) = run step (step s k).state ks := rfl

theorem Outcome.run_append : run step s (ks ++ ls) = run step (run step s ks) ls := by simp [run]

/-- What every step keeps, a run keeps. -/
theorem Outcome.run_induction {P : σ → Prop} (hstep : ∀ s k, P s → P (step s k).state) (hs : P s) :
    P (run step s ks) := by
  induction ks generalizing s with
  | nil => exact hs
  | cons k ks ih => exact ih _ (hstep s k hs)

@[simp] theorem Outcome.results_nil : results step s [] = [] := rfl

theorem Outcome.results_cons :
    results step s (k :: ks) = (step s k).result :: results step (step s k).state ks := rfl

end

end ChainedTable

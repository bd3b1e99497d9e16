import Mathlib.Logic.Basic

/-!
# Commands with a state and failures

A command reads and changes a state and may fail; a failure keeps the state that
was reached, as an exception of an imperative program does.  `Triple P c Q E` says
that `c`, started where `P` holds, ends where `Q` holds of its value, or fails
where `E` holds of its error.

**Results.**
* `triple_bind`, `triple_modify`, `triple_read`, `triple_ite`, `triple_rescue`: a rule
  for each way to build a command.
* `Keeps.bind`, `Keeps.forEach` and so on: the rules for an invariant that holds at
  the end whatever happens.
-/

namespace RwkvLightning

universe u

/-- A command on the state `σ` with errors `ε`. -/
def Command (σ ε α : Type u) : Type u :=
  σ → Except ε α × σ

namespace Command

variable {σ ε α β : Type u}

/-- Go on with the value of a command. -/
def next (f : α → Command σ ε β) : Except ε α × σ → Except ε β × σ
  | (.ok a, s) => f a s
  | (.error e, s) => (.error e, s)

/-- Go on after a failure. -/
def recover (handler : ε → Command σ ε α) : Except ε α × σ → Except ε α × σ
  | (.ok a, s) => (.ok a, s)
  | (.error e, s) => handler e s

instance : Monad (Command σ ε) where
  pure a := fun s => (.ok a, s)
  bind c f := fun s => next f (c s)

/-- The state. -/
def read : Command σ ε σ :=
  fun s => (.ok s, s)

/-- Change the state. -/
def modify (f : σ → σ) : Command σ ε PUnit :=
  fun s => (.ok ⟨⟩, f s)

/-- Fail. -/
def fail (e : ε) : Command σ ε α :=
  fun s => (.error e, s)

/-- Run `handler` where `c` fails. -/
def rescue (c : Command σ ε α) (handler : ε → Command σ ε α) : Command σ ε α :=
  fun s => recover handler (c s)

/-- Run a command for each element of a list. -/
def forEach (f : α → Command σ ε PUnit) : List α → Command σ ε PUnit
  | [] => pure ⟨⟩
  | a :: l => f a >>= fun _ => forEach f l

/-- The end of a command meets `Q`, or its failure meets `E`. -/
def Outcome (Q : α → σ → Prop) (E : ε → σ → Prop) : Except ε α × σ → Prop
  | (.ok a, s) => Q a s
  | (.error e, s) => E e s

/-- What holds before a command, after it, and where it fails. -/
def Triple (P : σ → Prop) (c : Command σ ε α) (Q : α → σ → Prop) (E : ε → σ → Prop) : Prop :=
  ∀ s, P s → Outcome Q E (c s)

section Rules

variable {P P' : σ → Prop} {Q Q' : α → σ → Prop} {E E' : ε → σ → Prop}

theorem triple_pure {a : α} (h : ∀ s, P s → Q a s) : Triple P (pure a) Q E :=
  fun s hs => h s hs

theorem triple_fail {e : ε} (h : ∀ s, P s → E e s) : Triple P (fail e) Q E :=
  fun s hs => h s hs

theorem triple_modify {f : σ → σ} {R : PUnit → σ → Prop} (h : ∀ s, P s → R ⟨⟩ (f s)) :
    Triple P (modify f) R E :=
  fun s hs => h s hs

theorem triple_bind {c : Command σ ε α} {f : α → Command σ ε β} {R : β → σ → Prop}
    (hc : Triple P c Q E) (hf : ∀ a, Triple (Q a) (f a) R E) : Triple P (c >>= f) R E := by
  intro s hs
  have h := hc s hs
  show Outcome R E (next f (c s))
  cases hcs : c s with
  | mk r t =>
      rw [hcs] at h
      cases r with
      | ok a => exact hf a t h
      | error e => exact h

/-- Read the state, and use that it is the one that was read. -/
theorem triple_read {f : σ → Command σ ε α}
    (h : ∀ s, P s → Triple (fun t => t = s) (f s) Q E) : Triple P (read >>= f) Q E :=
  fun s hs => h s hs s rfl

theorem triple_ite {c : Prop} [Decidable c] {x y : Command σ ε α}
    (hx : c → Triple P x Q E) (hy : ¬c → Triple P y Q E) :
    Triple P (if c then x else y) Q E := by
  by_cases hc : c
  · rw [if_pos hc]
    exact hx hc
  · rw [if_neg hc]
    exact hy hc

/-- A command that is run only under a condition, and what follows it. -/
theorem triple_when {c : Prop} [Decidable c] {x : Command σ ε PUnit}
    {f : PUnit → Command σ ε α} (hx : c → Triple P x (fun _ => P') E)
    (hskip : ¬c → ∀ s, P s → P' s) (hf : Triple P' (f ⟨⟩) Q E) :
    Triple P (if c then x >>= f else f ⟨⟩) Q E :=
  triple_ite (fun hc => triple_bind (hx hc) fun _ => hf)
    (fun hc s hs => hf s (hskip hc s hs))

theorem triple_weaken {c : Command σ ε α} (h : Triple P' c Q' E') (hP : ∀ s, P s → P' s)
    (hQ : ∀ a s, Q' a s → Q a s) (hE : ∀ e s, E' e s → E e s) : Triple P c Q E := by
  intro s hs
  have hout := h s (hP s hs)
  cases hcs : c s with
  | mk r t =>
      rw [hcs] at hout
      cases r with
      | ok a => exact hQ a t hout
      | error e => exact hE e t hout

/-- Start from one state of which the condition holds. -/
theorem triple_at {c : Command σ ε α} {s : σ} (hs : P s) (h : Triple P c Q E) :
    Triple (fun t => t = s) c Q E :=
  fun t ht => h t (ht ▸ hs)

theorem triple_rescue {c : Command σ ε α} {handler : ε → Command σ ε α}
    (hc : Triple P c Q E') (hh : ∀ e, Triple (E' e) (handler e) Q E) :
    Triple P (rescue c handler) Q E := by
  intro s hs
  have h := hc s hs
  show Outcome Q E (recover handler (c s))
  cases hcs : c s with
  | mk r t =>
      rw [hcs] at h
      cases r with
      | ok a => exact h
      | error e => exact hh e t h

end Rules

/-- An invariant that a command keeps, whether it fails or not. -/
def Keeps (I : σ → Prop) (c : Command σ ε α) : Prop :=
  Triple I c (fun _ => I) (fun _ => I)

section Invariants

variable {I : σ → Prop}

theorem Keeps.state {c : Command σ ε α} (h : Keeps I c) {s : σ} (hs : I s) : I (c s).2 := by
  have hout := h s hs
  cases hcs : c s with
  | mk r t =>
      rw [hcs] at hout
      cases r with
      | ok a => exact hout
      | error e => exact hout

theorem keeps_of_state {c : Command σ ε α} (h : ∀ s, I s → I (c s).2) : Keeps I c := by
  intro s hs
  have hout := h s hs
  cases hcs : c s with
  | mk r t =>
      rw [hcs] at hout
      cases r with
      | ok a => exact hout
      | error e => exact hout

theorem Keeps.pure {a : α} : Keeps I (Pure.pure a : Command σ ε α) :=
  triple_pure fun _ hs => hs

theorem Keeps.fail {e : ε} : Keeps I (Command.fail e : Command σ ε α) :=
  triple_fail fun _ hs => hs

theorem Keeps.modify {f : σ → σ} (h : ∀ s, I s → I (f s)) :
    Keeps I (Command.modify f : Command σ ε PUnit) :=
  triple_modify h

theorem Keeps.bind {c : Command σ ε α} {f : α → Command σ ε β}
    (hc : Keeps I c) (hf : ∀ a, Keeps I (f a)) : Keeps I (c >>= f) :=
  triple_bind hc hf

theorem Keeps.read {f : σ → Command σ ε α} (h : ∀ s, Keeps I (f s)) :
    Keeps I (Command.read >>= f) :=
  fun s hs => h s s hs

/-- Read the state, and use that the invariant holds of it. -/
theorem Keeps.reading {f : σ → Command σ ε α} (h : ∀ s, I s → Keeps I (f s)) :
    Keeps I (Command.read >>= f) :=
  fun s hs => h s hs s hs

theorem Keeps.ite {c : Prop} [Decidable c] {x y : Command σ ε α}
    (hx : Keeps I x) (hy : Keeps I y) : Keeps I (if c then x else y) :=
  triple_ite (fun _ => hx) (fun _ => hy)

theorem Keeps.when {c : Prop} [Decidable c] {x : Command σ ε PUnit}
    {f : PUnit → Command σ ε α} (hx : c → Keeps I x) (hf : Keeps I (f ⟨⟩)) :
    Keeps I (if c then x >>= f else f ⟨⟩) :=
  triple_when hx (fun _ _ hs => hs) hf

theorem Keeps.rescue {c : Command σ ε α} {handler : ε → Command σ ε α}
    (hc : Keeps I c) (hh : ∀ e, Keeps I (handler e)) : Keeps I (Command.rescue c handler) :=
  triple_rescue hc hh

theorem Keeps.forEach {f : α → Command σ ε PUnit} (hf : ∀ a, Keeps I (f a)) (l : List α) :
    Keeps I (Command.forEach f l) := by
  induction l with
  | nil => exact Keeps.pure
  | cons a l ih => exact Keeps.bind (hf a) fun _ => ih

end Invariants

end Command
end RwkvLightning

import Mathlib.Logic.Basic

/-!
Results of the modelled functions. A Rust call that returns `Result<T, E>`
either returns, reports an error value, or panics; the three are kept apart so
that "returns an error" and "aborts the guest" are different statements.
-/
namespace Vprogs

/-- How a call ends when it does not return `Ok`. -/
inductive Halt (ε : Type) where
  | err (e : ε)
  | panic (msg : String)
  deriving DecidableEq, Repr

abbrev Outcome (ε α : Type) := Except (Halt ε) α

/-- Wire-format errors of the codec crate. -/
inductive CodecError where
  | decode (field : String)
  | zeroCopy (msg : String)
  deriving DecidableEq, Repr

abbrev CodecResult (α : Type) := Outcome CodecError α

/-- `Option::ok_or`. -/
def okOr {ε α : Type} (x : Option α) (e : ε) : Outcome ε α :=
  match x with
  | some a => .ok a
  | none => .error (.err e)

/-- Indexing or unwrapping that panics when the value is missing. -/
def orPanic {ε α : Type} (x : Option α) (msg : String) : Outcome ε α :=
  match x with
  | some a => .ok a
  | none => .error (.panic msg)

/-- A guest entry point: it returns or aborts. -/
abbrev Guest (α : Type) := Outcome Empty α

/-- `Result::expect` and `Result::unwrap`: an error value aborts. -/
def expect {ε ε' α : Type} (x : Outcome ε α) (msg : String) : Outcome ε' α :=
  match x with
  | .ok a => .ok a
  | .error (.err _) => .error (.panic msg)
  | .error (.panic m) => .error (.panic m)

/-- `expect` on a plain result. -/
def expectOk {ε ε' α : Type} (x : Except ε α) (msg : String) : Outcome ε' α :=
  match x with
  | .ok a => .ok a
  | .error _ => .error (.panic msg)

/-- `?` on a plain result. -/
def lift {ε α : Type} (x : Except ε α) : Outcome ε α :=
  match x with
  | .ok a => .ok a
  | .error e => .error (.err e)

/-- A caller that takes a reported error as a value. -/
def asResult {ε ε' α : Type} : Outcome ε α → Outcome ε' (Except ε α)
  | .ok a => .ok (.ok a)
  | .error (.err e) => .ok (.error e)
  | .error (.panic msg) => .error (.panic msg)

/-- `assert!`. -/
def check {ε : Type} (cond : Bool) (msg : String) : Outcome ε Unit :=
  if cond then .ok () else .error (.panic msg)

@[simp] theorem okOr_eq_ok {ε α : Type} {x : Option α} {e : ε} {a : α} :
    (okOr x e : Outcome ε α) = .ok a ↔ x = some a := by
  cases x <;> simp [okOr]

@[simp] theorem orPanic_eq_ok {ε α : Type} {x : Option α} {msg : String} {a : α} :
    (orPanic x msg : Outcome ε α) = .ok a ↔ x = some a := by
  cases x <;> simp [orPanic]

@[simp] theorem expect_eq_ok {ε ε' α : Type} {x : Outcome ε α} {msg : String} {a : α} :
    (expect x msg : Outcome ε' α) = .ok a ↔ x = .ok a := by
  match x with
  | .ok b => simp [expect]
  | .error (.err e) => simp [expect]
  | .error (.panic m) => simp [expect]

@[simp] theorem expectOk_eq_ok {ε ε' α : Type} {x : Except ε α} {msg : String} {a : α} :
    (expectOk x msg : Outcome ε' α) = .ok a ↔ x = .ok a := by
  cases x <;> simp [expectOk]

@[simp] theorem lift_eq_ok {ε α : Type} {x : Except ε α} {a : α} : lift x = .ok a ↔ x = .ok a := by
  cases x <;> simp [lift]

@[simp] theorem check_eq_ok {ε : Type} {cond : Bool} {msg : String} {u : Unit} :
    (check cond msg : Outcome ε Unit) = .ok u ↔ cond = true := by
  cases cond <;> simp [check]

theorem toOption_eq_some {ε α : Type} {x : Except ε α} {a : α} : x.toOption = some a ↔ x = .ok a := by
  cases x <;> simp [Except.toOption]

theorem ok_bind {ε α β : Type} (a : α) (f : α → Outcome ε β) : (do let a ← (.ok a : Outcome ε α); f a) = f a := rfl

/-- A successful computation is a successful first step followed by a
successful rest. -/
theorem ok_bind_iff {ε α β : Type} {x : Outcome ε α} {f : α → Outcome ε β} {b : β} :
    (do let a ← x; f a) = .ok b ↔ ∃ a, x = .ok a ∧ f a = .ok b := by
  match x with
  | .ok a => exact ⟨fun h => ⟨a, rfl, h⟩, fun ⟨_, h, hf⟩ => by cases h; exact hf⟩
  | .error e => exact ⟨fun h => (nomatch h), fun ⟨_, h, _⟩ => (nomatch h)⟩

/-- A successful traversal has each element's result at its place. -/
theorem mapM_getElem? {ε α β : Type} {f : α → Outcome ε β} {as : List α} {bs : List β}
    (h : as.mapM f = .ok bs) {i : Nat} {a : α} (ha : as[i]? = some a) :
    ∃ b, bs[i]? = some b ∧ f a = .ok b := by
  induction as generalizing bs i with
  | nil => cases ha
  | cons a' as ih =>
    rw [List.mapM_cons] at h
    have ⟨b, hb, h⟩ := ok_bind_iff.mp h
    have ⟨bs', hbs, hpure⟩ := ok_bind_iff.mp h
    cases hpure
    cases i with
    | zero =>
      cases ha
      exact ⟨b, rfl, hb⟩
    | succ i => exact ih hbs ha

theorem length_of_mapM {ε α β : Type} {f : α → Except ε β} {as : List α} {bs : List β}
    (h : as.mapM f = .ok bs) : bs.length = as.length := by
  induction as generalizing bs with
  | nil =>
    cases h
    rfl
  | cons a as ih =>
    rw [List.mapM_cons] at h
    cases ha : f a with
    | error e =>
      rw [ha] at h
      cases h
    | ok b =>
      rw [ha] at h
      cases has : as.mapM f with
      | error e =>
        rw [has] at h
        cases h
      | ok bs' =>
        rw [has] at h
        cases h
        rw [List.length_cons, List.length_cons, ih has]

/-- The call does not abort, what it returns satisfies `Q` and an error it reports
satisfies `E`. -/
def Safe {ε α : Type} (E : ε → Prop) (Q : α → Prop) : Outcome ε α → Prop
  | .ok a => Q a
  | .error (.err e) => E e
  | .error (.panic _) => False

/-- The part of `Safe` that is not about the value. -/
abbrev Reports {ε α : Type} (E : ε → Prop) (x : Outcome ε α) : Prop := Safe E (fun _ => True) x

namespace Safe

variable {ε α β : Type} {E : ε → Prop} {Q : α → Prop}

theorem ok {a : α} (h : Q a) : Safe E Q (.ok a : Outcome ε α) := h

theorem of_ok {x : Outcome ε α} (h : Safe E Q x) {a : α} (ha : x = .ok a) : Q a := by
  rw [ha] at h
  exact h

theorem reports {x : Outcome ε α} (h : Safe E Q x) : Reports E x := by
  match x with
  | .ok a => exact trivial
  | .error (.err e) => exact h

theorem imp {E' : ε → Prop} {Q' : α → Prop} {x : Outcome ε α} (h : Safe E Q x) (hE : ∀ e, E e → E' e)
    (hQ : ∀ a, Q a → Q' a) : Safe E' Q' x := by
  match x with
  | .ok a => exact hQ a h
  | .error (.err e) => exact hE e h

theorem intro {x : Outcome ε α} (hx : Reports E x) (h : ∀ a, x = .ok a → Q a) : Safe E Q x := by
  match x with
  | .ok a => exact h a rfl
  | .error (.err e) => exact hx

theorem exists_ok {x : Outcome ε α} (h : Safe E Q x) (hne : ∀ e, x ≠ .error (.err e)) : ∃ a, x = .ok a := by
  match x with
  | .ok a => exact ⟨a, rfl⟩
  | .error (.err e) => exact absurd rfl (hne e)

/-- A sequence is safe if its first step is and, after every value that step can
return, so is the rest. -/
theorem bind {Q : β → Prop} {x : Outcome ε α} {f : α → Outcome ε β} (hx : Reports E x)
    (hf : ∀ a, x = .ok a → Safe E Q (f a)) : Safe E Q (do let a ← x; f a) := by
  match x with
  | .ok a => exact hf a rfl
  | .error (.err e) => exact hx

end Safe

/-- A sequence does not abort exactly if its first step does not and, after every
value that step can return, neither does the rest. -/
theorem reports_bind {ε α β : Type} {E : ε → Prop} {x : Outcome ε α} {f : α → Outcome ε β} :
    Reports E (do let a ← x; f a) ↔ Reports E x ∧ ∀ a, x = .ok a → Reports E (f a) := by
  match x with
  | .ok a => exact ⟨fun h => ⟨trivial, fun _ ha => by cases ha; exact h⟩, fun h => h.2 a rfl⟩
  | .error (.err e) => exact ⟨fun h => ⟨h, nofun⟩, fun h => h.1⟩
  | .error (.panic m) => exact ⟨False.elim, fun h => h.1⟩

theorem reports_orPanic {ε α : Type} {E : ε → Prop} {x : Option α} {msg : String} :
    Reports E (orPanic x msg) ↔ ∃ a, x = some a := by
  cases x with
  | none => exact ⟨False.elim, nofun⟩
  | some a => exact ⟨fun _ => ⟨a, rfl⟩, fun _ => trivial⟩

namespace Reports

variable {ε α : Type} {E : ε → Prop}

theorem of_eq_ok {x : Outcome ε α} {a : α} (h : x = .ok a) : Reports E x := by
  rw [h]
  trivial

theorem okOr {x : Option α} {e : ε} (h : E e) : Reports E (Vprogs.okOr x e) := by
  cases x with
  | none => exact h
  | some a => trivial

theorem lift {x : Except ε α} (h : ∀ e, x = .error e → E e) : Reports E (Vprogs.lift x) := by
  cases x with
  | ok a => trivial
  | error e => exact h e rfl

theorem check {cond : Bool} {msg : String} (h : cond = true) :
    Reports E (Vprogs.check cond msg : Outcome ε Unit) := by
  rw [h]
  trivial

end Reports

end Vprogs

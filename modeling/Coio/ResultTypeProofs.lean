import Coio.MachineProofs
import Mathlib.Logic.Function.Basic

/-! # `result<Value, Err>` — a union and the tag that names its member

    An object of `result` holds a value or an error in a union, and `m_iserr` says
    which one was constructed there.  Constructors and moves write the tag together
    with the member.  `set_error` and `set_value` destroy the old member by the tag
    and construct the new one, and leave the tag as it was.

    A construction may throw.  In a constructor or in `map` there is then no new
    object.  In `set_error`, `set_value` and `operator=` the old member is already
    destroyed, and the object stays behind with none.

    So the tag names the live member exactly as long as `set_error` is called on
    errors only, `set_value` on values only, and nothing is thrown while one member
    replaces another.  After any other call the next read, move, `map` or destruction
    goes to a member that is not there. -/

namespace CoioResultType

open CoioMachine

/-! ## One object -/

section Object

variable {V E : Type}

/-- What is constructed in the union, if anything is, and `m_iserr`.  `V` has the values
    of every `Value` that occurs: `map` goes from one `result<Value, Err>` to another. -/
structure Result (V E : Type) where
  member : Option (V ⊕ E)
  iserr : Bool

/-- How `Value` and `Err` move: what is left of the object that was moved from, given
    whether the move has thrown, and `is_nothrow_move_value`, `is_nothrow_move_error`. -/
structure Moves (V E : Type) where
  value : Bool → V → V
  error : Bool → E → E
  nothrowValue : Bool
  nothrowError : Bool

/-- What a construction leaves behind. -/
def built {α : Type} (throws : Bool) (a : α) : Option α := if throws then none else some a

namespace Result

def ofValue (v : V) : Result V E := ⟨some (.inl v), false⟩

def ofError (e : E) : Result V E := ⟨some (.inr e), true⟩

def isError (r : Result V E) : Bool := r.iserr

-- From here on `none` is undefined behaviour: a member is used that is not there.

def value (r : Result V E) : Option V := r.member.bind Sum.getLeft?

def getError (r : Result V E) : Option E := r.member.bind Sum.getRight?

def destructor (r : Result V E) : Option (Result V E) :=
  if r.isError then r.getError.map fun _ => { r with member := none }
  else r.value.map fun _ => { r with member := none }

/-- The new object, unless the move of the member throws, and what is left of the other
    one. -/
def moveConstruct (M : Moves V E) (throws : Bool) (other : Result V E) :
    Option (Option (Result V E) × Result V E) :=
  if other.isError then
    other.getError.map fun e =>
      (built throws ⟨some (.inr e), other.iserr⟩,
        { other with member := some (.inr (M.error throws e)) })
  else
    other.value.map fun v =>
      (built throws ⟨some (.inl v), other.iserr⟩,
        { other with member := some (.inl (M.value throws v)) })

/-- Assignment to another object.  If the move throws, `this` has the tag of the other one
    and no member. -/
def moveAssign (M : Moves V E) (throws : Bool) (this other : Result V E) :
    Option (Result V E × Result V E) :=
  this.destructor.bind fun d =>
    (moveConstruct M throws other).map fun m => (m.1.getD { d with iserr := other.iserr }, m.2)

/-- `this->~result(); std::construct_at(…)`: nothing writes the tag, and if the construction
    throws nothing is there. -/
def replaceMember (r : Result V E) (throws : Bool) (m : V ⊕ E) : Option (Result V E) :=
  r.destructor.map fun d => { d with member := built throws m }

def setError (r : Result V E) (throws : Bool) (e : E) : Option (Result V E) :=
  r.replaceMember throws (.inr e)

def setValue (r : Result V E) (throws : Bool) (v : V) : Option (Result V E) :=
  r.replaceMember throws (.inl v)

/-- `map(f) &`: `f` returns a value or throws, and may change its argument.  The new
    object, unless `f` or its construction has thrown, and what is left of the old one. -/
def map (f : V → Option V × V) (throws : Bool) (r : Result V E) :
    Option (Option (Result V E) × Result V E) :=
  if r.isError then r.getError.map fun e => (built throws (ofError e), r)
  else
    r.value.map fun v =>
      ((f v).1.bind fun w => built throws (ofValue w), { r with member := some (.inl (f v).2) })

/-- `map(f) &&`: the error is moved out. -/
def mapMove (M : Moves V E) (f : V → Option V × V) (throws : Bool) (r : Result V E) :
    Option (Option (Result V E) × Result V E) :=
  if r.isError then
    r.getError.map fun e =>
      (built throws (ofError e), { r with member := some (.inr (M.error throws e)) })
  else
    r.value.map fun v =>
      ((f v).1.bind fun w => built throws (ofValue w), { r with member := some (.inl (f v).2) })

/-- `is_error() ? get_error() : value()`. -/
def read (r : Result V E) : Option (V ⊕ E) :=
  if r.isError then r.getError.map .inr else r.value.map .inl

end Result

/-- There is a member, and `is_error()` is true exactly when it is the error. -/
def TagNames (r : Result V E) : Prop :=
  r.member ≠ none ∧ (r.isError = true ↔ ∃ e, r.member = some (.inr e))

end Object

/-! ## Any number of objects -/

/-- The live objects, by address.  `undefined` is set by the first use of a member that
    is not there; what happens after it nobody can say. -/
structure World (V E : Type) where
  objects : Nat → Option (Result V E)
  undefined : Bool

/-- `throws`: a construction that the operation makes throws. -/
inductive Event (V E : Type) where
  | value (i : Nat) (v : V) (throws : Bool)
  | error (i : Nat) (e : E) (throws : Bool)
  /-- `result i(std::move(j))` -/
  | moveConstruct (i j : Nat) (throws : Bool)
  /-- `i = std::move(j)` -/
  | moveAssign (i j : Nat) (throws : Bool)
  | setValue (i : Nat) (v : V) (throws : Bool)
  | setError (i : Nat) (e : E) (throws : Bool)
  /-- `auto i = j.map(f)` -/
  | map (i j : Nat) (f : V → Option V × V) (throws : Bool)
  /-- `auto i = std::move(j).map(f)` -/
  | mapMove (i j : Nat) (f : V → Option V × V) (throws : Bool)
  | read (i : Nat)
  | destroy (i : Nat)

section World

variable {V E : Type}

def World.put (s : World V E) (i : Nat) (r : Option (Result V E)) : World V E :=
  { s with objects := Function.update s.objects i r }

/-- A move of a value, or of an error, may end this way. -/
def Moves.AllowsValue (M : Moves V E) (throws : Bool) : Prop :=
  throws = true → M.nothrowValue = false

def Moves.AllowsError (M : Moves V E) (throws : Bool) : Prop :=
  throws = true → M.nothrowError = false

-- Both move operations are noexcept(is_nothrow_move_value), also where an error is moved.
def Moves.AllowsMove (M : Moves V E) (throws : Bool) (other : Result V E) : Prop :=
  M.AllowsValue throws ∧ (other.isError = true → M.AllowsError throws)

instance (M : Moves V E) (throws : Bool) : Decidable (M.AllowsValue throws) :=
  inferInstanceAs (Decidable (_ → _))

instance (M : Moves V E) (throws : Bool) : Decidable (M.AllowsError throws) :=
  inferInstanceAs (Decidable (_ → _))

instance (M : Moves V E) (throws : Bool) (other : Result V E) :
    Decidable (M.AllowsMove throws other) :=
  inferInstanceAs (Decidable (_ ∧ (_ → _)))

/-- What an operation does; `some none` is undefined behaviour.  There is no state after an
    exception that a `noexcept` stops: it ends the program. -/
def act (M : Moves V E) (s : World V E) : Event V E → Option (Option (World V E))
  | .value i v throws =>
      enabled ((s.objects i).isNone = true ∧ M.AllowsValue throws)
        (some (s.put i (built throws (.ofValue v))))
  | .error i e throws =>
      enabled ((s.objects i).isNone = true ∧ M.AllowsError throws)
        (some (s.put i (built throws (.ofError e))))
  | .moveConstruct i j throws =>
      (s.objects j).bind fun other =>
        enabled ((s.objects i).isNone = true ∧ M.AllowsMove throws other)
          ((other.moveConstruct M throws).map fun m => (s.put j (some m.2)).put i m.1)
  | .moveAssign i j throws =>
      (s.objects i).bind fun this =>
        (s.objects j).bind fun other =>
          -- std::addressof(other) == this
          if i = j then some (some s)
          else
            enabled (M.AllowsMove throws other)
              ((this.moveAssign M throws other).map fun m =>
                (s.put j (some m.2)).put i (some m.1))
  | .setValue i v throws =>
      (s.objects i).bind fun r =>
        enabled (M.AllowsValue throws) ((r.setValue throws v).map fun r' => s.put i (some r'))
  | .setError i e throws =>
      (s.objects i).bind fun r =>
        enabled (M.AllowsError throws) ((r.setError throws e).map fun r' => s.put i (some r'))
  | .map i j f throws =>
      (s.objects j).bind fun r =>
        enabled ((s.objects i).isNone = true)
          ((r.map f throws).map fun m => (s.put j (some m.2)).put i m.1)
  | .mapMove i j f throws =>
      (s.objects j).bind fun r =>
        enabled ((s.objects i).isNone = true ∧ (r.isError = true → M.AllowsError throws))
          ((r.mapMove M f throws).map fun m => (s.put j (some m.2)).put i m.1)
  | .read i => (s.objects i).map fun r => r.read.map fun _ => s
  | .destroy i => (s.objects i).map fun r => r.destructor.map fun _ => s.put i none

def step (M : Moves V E) (s : World V E) (e : Event V E) : Option (World V E) :=
  if s.undefined then none else (act M s e).map fun o => o.getD { s with undefined := true }

/-- Every tag names its member, and no member has been used that was not there. -/
def Sound (s : World V E) : Prop :=
  s.undefined = false ∧ ∀ i r, s.objects i = some r → TagNames r

variable {M : Moves V E} {s s' : World V E}

theorem World.put_self (s : World V E) (i : Nat) (new : Option (Result V E)) :
    (s.put i new).objects i = new :=
  Function.update_self ..

theorem Sound.put (hs : Sound s) (i : Nat) {new : Option (Result V E)}
    (hnew : ∀ r, new = some r → TagNames r) : Sound (s.put i new) := by
  refine ⟨hs.1, fun k r hk => ?_⟩
  rcases update_cases (· = some r) hk with ⟨-, hk⟩ | ⟨-, hk⟩
  · exact hnew r hk
  · exact hs.2 k r hk

end World

end CoioResultType

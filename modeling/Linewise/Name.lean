/-
  Names the emitted program needs and the source does not have.

  Every role has its own head and its own counter, and a name is the head followed by the count in
  decimal. The counters belong to one run, so two runs number alike.
-/
import Linewise.Text.Basic

namespace Linewise

open Text

/-- What a made-up name is for. -/
inductive NameRole where
  /-- the value a switch compares -/
  | switch
  /-- the target of a jump into the next clause -/
  | label
  /-- the binding that runs a deferred call -/
  | defer
  /-- the blank identifier where a binding is needed -/
  | discard
  /-- a whole entry of a map in a loop -/
  | entry
  deriving DecidableEq, Repr

/-- The head of all names of a role. -/
def NameRole.head : NameRole → Text
  | switch => "_s__"
  | label => "_l__"
  | defer => "_defer_"
  | discard => "_d__"
  | entry => "_h__"

/-- How many names of each role have been drawn. -/
structure NameSupply where
  switch : Nat := 0
  label : Nat := 0
  defer : Nat := 0
  discard : Nat := 0
  entry : Nat := 0
  deriving DecidableEq, Repr

namespace NameSupply

/-- The names drawn of one role. -/
def count (n : NameSupply) : NameRole → Nat
  | .switch => n.switch
  | .label => n.label
  | .defer => n.defer
  | .discard => n.discard
  | .entry => n.entry

/-- One more name of a role is drawn. -/
def advance (n : NameSupply) : NameRole → NameSupply
  | .switch => { n with switch := n.switch + 1 }
  | .label => { n with label := n.label + 1 }
  | .defer => { n with defer := n.defer + 1 }
  | .discard => { n with discard := n.discard + 1 }
  | .entry => { n with entry := n.entry + 1 }

/-- The next name of a role. -/
def next (n : NameSupply) (role : NameRole) : Text := role.head ++ decimal (n.count role)

@[simp] theorem count_advance_self (n : NameSupply) (role : NameRole) :
    (n.advance role).count role = n.count role + 1 := by
  cases role <;> rfl

theorem count_advance_of_ne (n : NameSupply) {role other : NameRole} (h : other ≠ role) :
    (n.advance role).count other = n.count other := by
  cases role <;> cases other <;> simp_all [advance, count]

end NameSupply

end Linewise

import ScriptMachine.Library

/-!
# Functions of a scripted host

Functions that a scripted host offers beside the base library: they shape argument lists, call
back, raise faults, record events, and act on the machines of the world.
-/

namespace ScriptMachine

namespace HostFunction

open Library (Native)

/-- The number that an argument is, or else a default. -/
def numberOr (args : List Value) (i : Nat) (default : Float) : Float :=
  match argument args i with
  | .number n => n
  | _ => default

/-- The integer part of an argument, zero when it is no number. -/
def integer (args : List Value) (i : Nat) : Int := Number.truncate (numberOr args i 0)

/-- The integer part of an argument in 32 bits. -/
def word (args : List Value) (i : Nat) : Nat := (integer args i % 2 ^ 32).toNat

/-- The integers from one up to a limit. -/
def range (limit : Float) : List Value :=
  (List.range (Number.truncate limit).toNat).map fun i => .ofNat (i + 1)

/-- Counts an argument down: nil below one, and else what is left and its square. -/
def down : Native := fun args =>
  let left := numberOr args 1 (numberOr args 0 0) - 1
  .done (if left < 1 then [.nil] else [.number left, .number (left * left)])

/-- Calls the first argument with the others. -/
def apply : Native := fun args =>
  match argument args 0 with
  | .function f => .call ⟨.function f, args.drop 1⟩ fun
    | .ok values => .done values
    | .error failure => .fail failure
  | _ => .fault (.host (.ofString "host.apply: function expected"))

/-- Raises a fault with a text. -/
def fault : Native := fun args =>
  match argument args 0 with
  | .string text => .fault (.host text)
  | _ => .fault (.host (.ofString "host fault"))

/-- Stores a value in a table. -/
def set : Native := fun args =>
  match argument args 0 with
  | .table t => .set t (argument args 1) (argument args 2) (.done [])
  | _ => .fault (.host (.ofString "host.set: table expected"))

/-- The capital form of a string. -/
def upper : Native := fun args =>
  match argument args 0 with
  | .string s => .done [.string (s.map Bytes.toUpper)]
  | _ => .fault (.host (.ofString "host.upper: string expected"))

/-- The functions of a scripted host by name. -/
def all : List (String × Native) :=
  [("host.id", .done),
    ("host.count", fun args => .done [.ofNat args.length]),
    ("host.rev", fun args => .done args.reverse),
    ("host.none", fun _ => .done []),
    ("host.range", fun args => .done (range (numberOr args 0 0))),
    ("host.apply", apply),
    ("host.fault", fault),
    ("host.bad", fun _ => .fail (.foreign (.ofString "host failure"))),
    ("host.log", fun args => .record (.log args) (.done [])),
    ("host.stop", fun args => .close ⟨word args 0⟩ (.done [])),
    ("host.release", fun args => .release ⟨word args 0⟩ (.done [])),
    ("host.bp", fun args =>
      .breakpoint ⟨0⟩ (word args 0) (word args 1) (argument args 2).truthy (.done [])),
    ("host.set", set),
    ("host.upper", upper),
    ("host.down", down)]

/-- The function of a scripted host with a name. -/
def named? (name : String) : Option Native := all.lookup name

end HostFunction

end ScriptMachine

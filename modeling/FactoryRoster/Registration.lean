import FactoryRoster.Settings
import FactoryRoster.Tree

/-!
# The registration of a file

Factories are declared in the block of a registration. The registration of a tree is the first one
that is reached, in the order of the source, through containers of statements alone: a call is
never searched.
-/

namespace FactoryRoster

/-- Whether a call is a registration. -/
def Conventions.registers (k : Conventions) (c : Call) : Bool :=
  c.method == k.method && c.receiverName? == some k.receiver && c.block.isSome

mutual

def Node.registration? (k : Conventions) : Node → Option Call
  | .program children => firstRegistration? k children
  | .statements children => firstRegistration? k children
  | .call receiver method arguments block =>
    let c : Call := ⟨receiver, method, arguments, block⟩
    if k.registers c then some c else none
  | .string _ => none
  | .identifier _ => none
  | .other _ => none

/-- The registration of the first tree that has one. -/
def firstRegistration? (k : Conventions) : List Node → Option Call
  | [] => none
  | n :: ns =>
    match n.registration? k with
    | some c => some c
    | none => firstRegistration? k ns

end

end FactoryRoster

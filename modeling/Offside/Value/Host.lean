import Offside.Value.Basic

/-!
# Commands for trying programs out

A host that tries programs out adds commands to look at values and to see how failures travel.
-/

namespace Offside

namespace HostCommand

def subject (args : List Sight) : Sight := args.headD ⟨.none, "none"⟩

def typeOf : HostCommand where
  name := "TYPEOF"
  arity := .exactly 1
  output _ := none
  result args := .value (.text (subject args).type.name)

def count : HostCommand where
  name := "COUNT"
  arity := .any
  output _ := none
  result args := .value (.number (Double.ofInt args.length))

def first : HostCommand where
  name := "FIRST"
  arity := .exactly 2
  output _ := none
  result _ := .argument 0

/-- Writes its argument as it is, without ending the line. -/
def raw : HostCommand where
  name := "RAW"
  arity := .exactly 1
  output args := some (subject args).text
  result _ := .argument 0

def raise : HostCommand where
  name := "RAISE"
  arity := .exactly 1
  output _ := none
  result args := .failure ⟨.undefinedVariable (subject args).text, none⟩

/-- Fails at a position of its own. -/
def raiseAt : HostCommand where
  name := "RAISEAT"
  arity := .exactly 1
  output _ := none
  result args := .failure ⟨.commandNotFound (subject args).text, some ⟨77, 5⟩⟩

end HostCommand

namespace Native

def extra : List Native :=
  [host .typeOf, host .count, host .first, host .raw, host .raise, host .raiseAt]

def ofName? (s : String) : Option Native := (standard ++ extra).find? (·.name == s)

end Native

end Offside

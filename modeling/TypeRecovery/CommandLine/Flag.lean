/- The flags of the command line, by name and by letter. -/
namespace TypeRecovery.CommandLine

inductive Flag where
  | config | verbose | noColor | help | classpath | workers
deriving DecidableEq, Repr

namespace Flag

def long : Flag → String
  | config => "config" | verbose => "verbose" | noColor => "no-color" | help => "help"
  | classpath => "classpath" | workers => "workers"

def short? : Flag → Option Char
  | config => some 'c'
  | verbose => some 'v'
  | help => some 'h'
  | workers => some 'j'
  | noColor | classpath => none

/-- The flag is followed by a value; the others are switches. -/
def takesValue : Flag → Bool
  | config | classpath | workers => true
  | verbose | noColor | help => false

/-- The flag as messages show it. -/
def shown (f : Flag) : String :=
  match f.short? with
  | some c => s!"-{c}, --{f.long}"
  | none => "--" ++ f.long

end Flag

/-- The flags that are known at some place. -/
abbrev Flags := List Flag

namespace Flags

def named? (known : Flags) (name : List Char) : Option Flag :=
  known.find? (·.long.toList == name)

def lettered? (known : Flags) (c : Char) : Option Flag := known.find? (·.short? == some c)

end Flags

end TypeRecovery.CommandLine

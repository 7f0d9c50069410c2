import TypeRecovery.CommandLine.Flag
import TypeRecovery.Text.Numeral
import TypeRecovery.Text.Split

/- The options that flags set, and how flags are read: by name or by letter, anywhere among the
   arguments, up to two dashes. -/
namespace TypeRecovery.CommandLine

structure Options where
  config : String := ""
  verbose : Bool := false
  noColor : Bool := false
  help : Bool := false
  classpath : String := ""
  workers : Int := 0
deriving DecidableEq, Repr

/-- What is wrong with the arguments. -/
inductive UsageError where
  | unknownCommand (name topic : String) (proposals : List String)
  | badSyntax (arg : String)
  | unknownFlag (name : String)
  | unknownLetter (letter : Char) (rest : String)
  | missingValue (name : String)
  | missingLetterValue (letter : Char)
  | badValue (value : String) (flag : Flag) (reason : String)
  | tooFew (least given : Nat)
  | wrongCount (wanted given : Nat)
deriving DecidableEq, Repr

namespace UsageError

/-- Names that may have been meant, one a line. -/
def hint : List String → String
  | [] => ""
  | names => "\n\nDid you mean this?\n" ++ String.join (names.map fun name => s!"\t{name}\n")

/-- The wording. A letter beyond ASCII is named by the character of its first byte. -/
def message : UsageError → String
  | unknownCommand name topic proposals =>
    s!"unknown command {Text.quoted name} for {Text.quoted topic}{hint proposals}"
  | badSyntax arg => s!"bad flag syntax: {arg}"
  | unknownFlag name => s!"unknown flag: --{name}"
  | unknownLetter letter rest =>
    let lead := Char.ofNat ((String.utf8EncodeChar letter).headD 0).toNat
    s!"unknown shorthand flag: {Text.quotedLetter lead} in -{letter}{rest}"
  | missingValue name => s!"flag needs an argument: --{name}"
  | missingLetterValue letter =>
    s!"flag needs an argument: {Text.quotedLetter letter} in -{letter}"
  | badValue value flag reason =>
    s!"invalid argument {Text.quoted value} for \"{flag.shown}\" flag: {reason}"
  | tooFew least given => s!"requires at least {least} arg(s), only received {given}"
  | wrongCount wanted given => s!"accepts {wanted} arg(s), received {given}"

end UsageError

def trueWords : List String := ["1", "t", "T", "true", "TRUE", "True"]
def falseWords : List String := ["0", "f", "F", "false", "FALSE", "False"]

/-- The value of a switch. -/
def switchValue (f : Flag) (value : String) : Except UsageError Bool :=
  if trueWords.contains value then .ok true
  else if falseWords.contains value then .ok false
  else .error (.badValue value f
    s!"strconv.ParseBool: parsing {Text.quoted value}: invalid syntax")

namespace Options

/-- Sets a flag to a value. -/
def set (o : Options) (f : Flag) (value : String) : Except UsageError Options :=
  match f with
  | .config => .ok { o with config := value }
  | .classpath => .ok { o with classpath := value }
  | .workers =>
    match Text.integerValue value.toList with
    | .ok n => .ok { o with workers := n }
    | .error e => .error (.badValue value f (e.message value))
  | .verbose => return { o with verbose := ← switchValue f value }
  | .noColor => return { o with noColor := ← switchValue f value }
  | .help => return { o with help := ← switchValue f value }

/-- Letters that start like this belong to a test runner and set nothing. -/
def runnerMark : List Char := ['t', 'e', 's', 't', '.']

/-- One argument of letters: switches, and at the end perhaps a flag with a value, which is the rest
    of the argument or, if there is none, the next one. A value after `=` ends the argument too, if it
    is not empty. The result says whether the next argument was used. -/
def setLetters (known : Flags) (o : Options) (next : Option String) :
    List Char → Except UsageError (Options × Bool)
  | [] => return (o, false)
  | c :: rest =>
    if runnerMark.isPrefixOf (c :: rest) then return (o, false)
    else
      match known.lettered? c with
      | none => throw (.unknownLetter c (String.ofList rest))
      | some f =>
        match rest, f.takesValue, next with
        | '=' :: v :: value, _, _ => return (← o.set f (String.ofList (v :: value)), false)
        | rest, false, next => do setLetters known (← o.set f "true") next rest
        | [], true, none => throw (.missingLetterValue c)
        | [], true, some value => return (← o.set f value, true)
        | rest, true, _ => return (← o.set f (String.ofList rest), false)

/-- One argument with a flag by name, its value after `=` or in the next argument. The result says
    whether the next argument was used. -/
def setNamed (known : Flags) (o : Options) (body : List Char) (next : Option String) :
    Except UsageError (Options × Bool) :=
  if [some '-', some '='].contains body.head? then
    throw (.badSyntax (String.ofList ('-' :: '-' :: body)))
  else
    let (name, value) :=
      match Text.cut? ['='] body with
      | some (name, value) => (name, some (String.ofList value))
      | none => (body, none)
    match known.named? name with
    | none => throw (.unknownFlag (String.ofList name))
    | some f =>
      match value, f.takesValue, next with
      | some value, _, _ => return (← o.set f value, false)
      | none, false, _ => return (← o.set f "true", false)
      | none, true, some value => return (← o.set f value, true)
      | none, true, none => throw (.missingValue (String.ofList name))

/-- Reads all arguments: the options, and the words that are no flags. With `skip` the next argument
    is a value that was taken already. -/
def read (known : Flags) (o : Options) (skip : Bool) :
    List String → Except UsageError (Options × List String)
  | [] => return (o, [])
  | arg :: rest =>
    if skip then read known o false rest
    else
      match arg.toList with
      | ['-', '-'] => return (o, rest)
      | '-' :: '-' :: body => do
        let (o, used) ← setNamed known o body rest.head?
        read known o used rest
      | '-' :: c :: letters => do
        let (o, used) ← setLetters known o rest.head? (c :: letters)
        read known o used rest
      | _ => do
        let (o, words) ← read known o false rest
        return (o, arg :: words)

end Options

end TypeRecovery.CommandLine

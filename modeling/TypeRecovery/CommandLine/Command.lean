import TypeRecovery.CommandLine.Options
import TypeRecovery.CommandLine.Topic

/- What the arguments ask for: the topic is found first, then its flags are read, and last its words
   are counted. -/
namespace TypeRecovery.CommandLine

inductive Command where
  | infer (paths : List String)
  | importClasses (source store : String)
  | showClasses (path : String)
  | version
  | help
deriving DecidableEq, Repr

namespace Topic

/-- The command of a topic with its words. A topic that only groups others explains itself. -/
def command (t : Topic) (words : List String) : Except UsageError Command :=
  match t, words with
  | infer, [] => .error (.tooFew 1 0)
  | infer, paths => .ok (.infer paths)
  | importClasses, [source, store] => .ok (.importClasses source store)
  | importClasses, words => .error (.wrongCount 2 words.length)
  | showClasses, [path] => .ok (.showClasses path)
  | showClasses, words => .error (.wrongCount 1 words.length)
  | version, _ => .ok .version
  | program, _ | classpath, _ | help, _ | completion, _ => .ok .help

end Topic

/-- Reads the command line. A word at the top that names no topic is refused before any flag is
    read, with the names that are proposed in its place. -/
def parse (propose : String → List String) (args : List String) :
    Except UsageError (Options × Command) := do
  let (topic, rest) := Topic.program.locate args
  if topic = .program then
    if let some (word, _) := Topic.takeWord? topic.flags rest then
      throw (.unknownCommand word topic.name (propose word))
  let (o, words) ← Options.read (topic.flags ++ [.help]) {} false rest
  if o.help then return (o, .help)
  return (o, ← topic.command words)

end TypeRecovery.CommandLine

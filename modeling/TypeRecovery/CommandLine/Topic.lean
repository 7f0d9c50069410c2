import TypeRecovery.CommandLine.Flag

/- The tree of commands. The words among the arguments lead down the tree as far as they name
   something. -/
namespace TypeRecovery.CommandLine

/-- A place in the tree of commands. -/
inductive Topic where
  | program
  | infer
  | classpath
  | importClasses
  | showClasses
  | version
  | help
  | completion
deriving DecidableEq, Repr

namespace Topic

def name : Topic → String
  | program => "dextype" | infer => "infer" | classpath => "classpath" | importClasses => "import"
  | showClasses => "show" | version => "version" | help => "help" | completion => "completion"

/-- The topics right below. -/
def children : Topic → List Topic
  | program => [classpath, infer, version, help, completion]
  | classpath => [importClasses, showClasses]
  | infer | importClasses | showClasses | version | help | completion => []

/-- The flags of a topic while the topic is being looked for. Help is not among them: it is understood
    only once the topic is found. -/
def flags (t : Topic) : Flags :=
  [.config, .verbose, .noColor] ++ match t with
    | infer => [.classpath, .workers]
    | _ => []

/-! ## Finding the topic -/

/-- The argument is a flag whose value is the next argument. A flag that is not known is taken to have
    a value; letters that stand together are not looked into. -/
def awaitsValue (known : Flags) (arg : String) : Bool :=
  match arg.toList with
  | '-' :: '-' :: name => !name.contains '=' && (known.named? name).all Flag.takesValue
  | ['-', c] => c != '=' && c.utf8Size == 1 && (known.lettered? c).all Flag.takesValue
  | _ => false

/-- A word is neither empty nor starts with a dash. -/
def isWord (arg : String) : Bool :=
  match arg.toList with
  | [] => false
  | c :: _ => c != '-'

/-- The first word that is not the value of a flag, and the arguments without it. Two dashes end the
    search, and so does a flag that waits for a value when only that value is left. -/
def takeWord? (known : Flags) : List String → Option (String × List String)
  | [] => none
  | [arg] => if isWord arg then some (arg, []) else none
  | arg :: next :: rest =>
    if arg = "--" then none
    else if awaitsValue known arg then
      (takeWord? known rest).map fun (word, others) => (word, arg :: next :: others)
    else if isWord arg then some (arg, next :: rest)
    else (takeWord? known (next :: rest)).map fun (word, others) => (word, arg :: others)

/-- Taking the word leaves one argument fewer. -/
theorem length_of_takeWord? {known : Flags} {args others : List String} {word : String}
    (h : takeWord? known args = some (word, others)) : others.length + 1 = args.length := by
  fun_induction takeWord? known args generalizing others with
  | case1 => simp at h
  | case2 => simp_all
  | case3 => simp at h
  | case4 => simp at h
  | case5 arg next rest _ _ ih =>
    obtain ⟨⟨w, o⟩, ho, e⟩ := Option.map_eq_some_iff.1 h
    obtain ⟨rfl, rfl⟩ := Prod.mk.inj e
    simp [← ih ho]
  | case6 => simp_all
  | case7 arg next rest _ _ _ ih =>
    obtain ⟨⟨w, o⟩, ho, e⟩ := Option.map_eq_some_iff.1 h
    obtain ⟨rfl, rfl⟩ := Prod.mk.inj e
    simp [← ih ho]

/-- Follows the words down from a topic: the topic reached, and the arguments without the words that
    led there. -/
def locate (t : Topic) (args : List String) : Topic × List String :=
  match h : takeWord? t.flags args with
  | none => (t, args)
  | some (word, others) =>
    have := length_of_takeWord? h
    match t.children.find? (·.name == word) with
    | none => (t, args)
    | some child => locate child others
termination_by args.length

end Topic

end TypeRecovery.CommandLine

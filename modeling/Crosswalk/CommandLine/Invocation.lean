/-!
# Invocations

What the arguments of the command line ask for. Options may stand in any order and between the
classes, and none of them twice. These rules are the library's own. The theorems about runs do not
rest on them: they speak of whatever request the arguments are taken for, and only the runs with
fixed arguments look at how it is read.
-/

namespace Crosswalk.CommandLine

/-- What is asked for. -/
structure Request where
  /-- The path of the mod. -/
  mod : String
  /-- The path of the mappings, without which every name stays. -/
  mappings : Option String
  /-- The namespace of the mod. -/
  source : String
  /-- The namespace at runtime. -/
  target : String
  development : Bool
  /-- The directory that the classes are written into. -/
  output : String
  /-- The classes to write, or none to write all of them. -/
  classes : List String
  deriving DecidableEq

/-- What to do about the arguments. -/
inductive Invocation
  | work (request : Request)
  | help
  | version
  /-- The arguments make no sense. -/
  | misuse
  deriving DecidableEq

/-- An option that takes a value. -/
inductive ValueOption
  | mod
  | mappings
  | source
  | target
  | output
  deriving DecidableEq

/-- The option of a name. -/
def ValueOption.ofName? : String → Option ValueOption
  | "--mod" => some .mod
  | "--mappings" => some .mappings
  | "--from" => some .source
  | "--to" => some .target
  | "--output" => some .output
  | _ => none

/-- Whether the value of an option is a path, which may not be empty. -/
def ValueOption.isPath : ValueOption → Bool
  | mod | mappings | output => true
  | source | target => false

/-- The arguments so far: the values of the options, and the classes, the last one first. -/
structure Gathered where
  values : List (ValueOption × String)
  development : Bool
  classes : List String

namespace Gathered

/-- No arguments. -/
def none : Gathered := ⟨[], false, []⟩

/-- Takes a value for an option, which may have only one. -/
def withValue? (g : Gathered) (option : ValueOption) (value : String) : Option Gathered :=
  if (g.values.lookup option).isSome || (option.isPath && value.isEmpty) then Option.none
  else some { g with values := (option, value) :: g.values }

/-- Takes a class. -/
def withClass (g : Gathered) (name : String) : Gathered :=
  { g with classes := name :: g.classes }

/-- What is asked for, once all arguments are gathered. The mod has to be given. -/
def invocation (g : Gathered) : Invocation :=
  match g.values.lookup .mod with
  | Option.none => .misuse
  | some path =>
    .work
      { mod := path, mappings := g.values.lookup .mappings
        source := (g.values.lookup .source).getD "intermediary"
        target := (g.values.lookup .target).getD "named"
        development := g.development
        output := (g.values.lookup .output).getD "."
        classes := g.classes.reverse }

end Gathered

/-- Whether an argument is read as an option. A dash alone is not. -/
def isOption (argument : String) : Bool :=
  argument.toList.head? == some '-' && argument != "-"

/-- The parts of an argument around the first equals sign. -/
def splitValue (argument : String) : String × Option String :=
  let name := argument.toList.takeWhile (· ≠ '=')
  match argument.toList.dropWhile (· ≠ '=') with
  | _ :: value => (String.ofList name, some (String.ofList value))
  | [] => (argument, none)

/-- Reads arguments from the front. Classes may stand between the options, and behind two dashes
every argument is a class. -/
def gather (g : Gathered) : List String → Invocation
  | [] => g.invocation
  | argument :: rest =>
    if argument = "--" then
      (rest.foldl Gathered.withClass g).invocation
    else if !isOption argument then
      gather (g.withClass argument) rest
    else if argument = "--help" || argument.startsWith "-h" then
      .help
    else if argument = "--version" || argument.startsWith "-V" then
      .version
    else if argument = "--dev" then
      if g.development then .misuse else gather { g with development := true } rest
    else
      match splitValue argument with
      | (name, some value) =>
        match (ValueOption.ofName? name).bind fun o => g.withValue? o value with
        | some g => gather g rest
        | none => .misuse
      | (name, none) =>
        match ValueOption.ofName? name, rest with
        | some option, value :: rest =>
          if isOption value then .misuse
          else
            match g.withValue? option value with
            | some g => gather g rest
            | none => .misuse
        | _, _ => .misuse

/-- What the arguments ask for. -/
def Invocation.ofArguments (arguments : List String) : Invocation :=
  gather .none arguments

end Crosswalk.CommandLine

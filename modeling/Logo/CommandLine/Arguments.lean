import Logo.Control

/-!
# Command line arguments

The arguments are one script, or the path of a file that holds it, among options.  Options may stand
anywhere; behind `--` everything is taken as it is.  A short option is one letter, and letters may
be joined behind one hyphen.  An option with a value takes it behind an equals sign or as the next
argument, which then must not look like an option.
-/

namespace Logo

namespace CommandLine

/-- What is to be done with a script. -/
structure Arguments where
  /-- The script, or the path of its file. -/
  contents : String
  /-- Whether `contents` is a path. -/
  isPath : Bool
  /-- Whether to print the tree of the script instead of running it. -/
  showTree : Bool
  /-- Whether to print the drawing log after the run. -/
  showLog : Bool
  /-- The canvas and the pacing. -/
  settings : Settings

/-- The options that take a number. -/
inductive NumberOption where
  /-- The speed of the run. -/
  | speed
  /-- The width of the canvas. -/
  | width
  /-- The height of the canvas. -/
  | height
  deriving DecidableEq

/-- The options that take no value. -/
inductive Flag where
  /-- The script is in a file. -/
  | file
  /-- Print the tree. -/
  | tree
  /-- Print the drawing log. -/
  | log
  deriving DecidableEq

/-- What an option means. -/
inductive Meaning where
  /-- It takes no value. -/
  | flag (f : Flag)
  /-- It takes a number. -/
  | number (o : NumberOption)
  /-- It asks for help. -/
  | help
  /-- It asks for the version. -/
  | version
  deriving DecidableEq

/-- The options by their long names. -/
def longOptions : List (String × Meaning) :=
  [("file", .flag .file), ("tree", .flag .tree), ("log", .flag .log), ("speed", .number .speed),
   ("width", .number .width), ("height", .number .height), ("help", .help), ("version", .version)]

/-- The options by their letters. -/
def shortOptions : List (Char × Meaning) :=
  [('f', .flag .file), ('h', .help), ('V', .version)]

/-- The range of the numbers that an option takes. -/
def NumberOption.range : NumberOption → Int × Int
  | .speed => (1, 100)
  | .width => (0, Nat.pow 2 32 - 1)
  | .height => (0, Nat.pow 2 32 - 1)

/-- Why no script is to be run. -/
inductive Refusal where
  /-- Help was asked for. -/
  | help
  /-- The version was asked for. -/
  | version
  /-- The arguments make no sense. -/
  | misuse
  deriving DecidableEq

/-- The whole number that a text denotes: digits behind an optional sign. -/
def wholeNumber? (text : String) : Option Int :=
  let (negative, digits) :=
    match text.toList with
    | '-' :: rest => (true, rest)
    | '+' :: rest => (false, rest)
    | rest => (false, rest)
  if digits ≠ [] ∧ digits.all Char.isDigit then
    let value := digits.foldl (fun value c => 10 * value + (c.toNat - '0'.toNat)) 0
    some (if negative then -value else value)
  else none

/-- The options and the script read so far. -/
structure Draft where
  /-- The flags seen. -/
  flags : List Flag
  /-- The numbers seen. -/
  numbers : List (NumberOption × Nat)
  /-- The argument that is no option, if seen. -/
  contents? : Option String

namespace Draft

/-- Nothing read yet. -/
def empty : Draft := ⟨[], [], none⟩

/-- Adds a flag, which may be given once. -/
def addFlag (d : Draft) (f : Flag) : Except Refusal Draft :=
  if f ∈ d.flags then .error .misuse else .ok { d with flags := f :: d.flags }

/-- Adds a number in range for an option, which may be given once. -/
def addNumber (d : Draft) (o : NumberOption) (text : String) : Except Refusal Draft :=
  match wholeNumber? text, d.numbers.lookup o with
  | some n, none =>
    if o.range.1 ≤ n ∧ n ≤ o.range.2 then .ok { d with numbers := (o, n.toNat) :: d.numbers }
    else .error .misuse
  | _, _ => .error .misuse

/-- Adds the argument that is no option; there may be one. -/
def addContents (d : Draft) (text : String) : Except Refusal Draft :=
  match d.contents? with
  | none => .ok { d with contents? := some text }
  | some _ => .error .misuse

/-- The arguments, complete with the defaults of what was not given. -/
def complete (d : Draft) : Except Refusal Arguments :=
  match d.contents? with
  | none => .error .misuse
  | some contents =>
    let number (o : NumberOption) (default : Nat) := (d.numbers.lookup o).getD default
    let defaults : Settings := {}
    .ok
      { contents
        isPath := .file ∈ d.flags
        showTree := .tree ∈ d.flags
        showLog := .log ∈ d.flags
        settings :=
          { width := number .width defaults.width
            height := number .height defaults.height
            speed := number .speed defaults.speed
            step := defaults.step } }

end Draft

/-- Reads the letters behind a hyphen. -/
def readLetters (d : Draft) : List Char → Except Refusal Draft
  | [] => .ok d
  | c :: rest =>
    match shortOptions.lookup c with
    | some (.flag f) => do readLetters (← d.addFlag f) rest
    | some .help => .error .help
    | some .version => .error .version
    | some (.number _) => .error .misuse
    | none => .error .misuse

/-- Reads arguments that are all taken as they are. -/
def readPlain (d : Draft) : List String → Except Refusal Draft
  | [] => .ok d
  | arg :: rest => do readPlain (← d.addContents arg) rest

/-- The characters of an option: what follows the hyphens, and whether there are two of them.  A
single hyphen is no option. -/
def optionText? (arg : String) : Option (Bool × List Char) :=
  match arg.toList with
  | '-' :: '-' :: name => some (true, name)
  | '-' :: c :: letters => some (false, c :: letters)
  | _ => none

/-- The name of a long option and the value attached to it behind an equals sign. -/
def splitAttached (text : List Char) : String × Option String :=
  let name := String.ofList (text.takeWhile (· ≠ '='))
  match text.dropWhile (· ≠ '=') with
  | [] => (name, none)
  | _ :: value => (name, some (String.ofList value))

/-- Reads arguments from left to right; the first that is wrong decides. -/
def readArguments (d : Draft) : List String → Except Refusal Draft
  | [] => .ok d
  | arg :: rest =>
    match optionText? arg with
    | none => do readArguments (← d.addContents arg) rest
    | some (true, []) => readPlain d rest
    | some (false, letters) => do readArguments (← readLetters d letters) rest
    | some (true, text) =>
      let (name, attached?) := splitAttached text
      match longOptions.lookup name, attached? with
      | some (.number o), some value => do readArguments (← d.addNumber o value) rest
      | some (.number o), none =>
        match rest with
        | [] => .error .misuse
        | value :: rest =>
          if (optionText? value).isSome then .error .misuse
          else do readArguments (← d.addNumber o value) rest
      | some (.flag f), none => do readArguments (← d.addFlag f) rest
      | some .help, none => .error .help
      | some .version, none => .error .version
      | _, _ => .error .misuse

/-- What the arguments ask for. -/
def Arguments.ofList (args : List String) : Except Refusal Arguments := do
  (← readArguments .empty args).complete

end CommandLine

end Logo

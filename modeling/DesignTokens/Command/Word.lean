/-!
# Words of the command line

The arguments of a command are read as words: flags, parameters with their values, and sources. A
flag or a parameter has a letter behind one dash and a name behind two. Letters may share a dash.
The value of a parameter is the rest of the argument, with or without an equals sign behind a letter
and with one behind a name, or else the next argument if that does not begin with a dash.

After a double dash all arguments are sources.
-/

namespace DesignTokens.Command

/-- A word that is given or not. -/
inductive Flag where
  | verbose
  | help
  | version
  deriving DecidableEq, Repr

/-- The letter of a flag. -/
def Flag.letter : Flag → Char
  | verbose => 'v'
  | help => 'h'
  | version => 'V'

/-- The name of a flag. -/
def Flag.name : Flag → String
  | verbose => "verbose"
  | help => "help"
  | version => "version"

/-- A word that has a value. -/
inductive Parameter where
  | config
  | space
  | format
  | outputDirectory
  deriving DecidableEq, Repr

/-- The letter of a parameter. -/
def Parameter.letter : Parameter → Char
  | config => 'c'
  | space => 'n'
  | format => 'f'
  | outputDirectory => 'o'

/-- The name of a parameter. -/
def Parameter.name : Parameter → String
  | config => "config"
  | space => "namespace"
  | format => "format"
  | outputDirectory => "out-dir"

/-- A word. -/
inductive Word where
  | flag (f : Flag)
  | parameter (p : Parameter) (value : String)
  | source (text : String)
  /-- An argument that means nothing, or a parameter without its value. -/
  | misuse
  deriving DecidableEq, Repr

/-- The words that a command knows. -/
structure Vocabulary where
  flags : List Flag
  parameters : List Parameter := []

namespace Vocabulary

/-- Whether an argument is read as a flag or a parameter. A single dash is not. -/
def isMarked (arg : String) : Bool :=
  arg.toList.head? == some '-' && arg != "-"

/-- A parameter whose value must be the next argument, and whether it is. -/
def withNext (p : Parameter) (next : Option String) : List Word × Bool :=
  match next.filter fun arg => !isMarked arg with
  | some value => ([.parameter p value], true)
  | none => ([.misuse], false)

/-- The words that letters behind a dash mean, and whether they use the next argument. -/
def letters (v : Vocabulary) (next : Option String) : List Char → List Word × Bool
  | [] => ([], false)
  | c :: rest =>
    match v.flags.find? fun f => f.letter == c with
    | some f =>
      let (words, used) := letters v next rest
      (.flag f :: words, used)
    | none =>
      match v.parameters.find? fun p => p.letter == c with
      | none => ([.misuse], false)
      | some p =>
        match rest with
        | [] => withNext p next
        | '=' :: value => ([.parameter p (String.ofList value)], false)
        | value => ([.parameter p (String.ofList value)], false)

/-- The word that a name behind two dashes means, and whether it uses the next argument. -/
def named (v : Vocabulary) (next : Option String) (cs : List Char) : List Word × Bool :=
  let name := String.ofList (cs.takeWhile (· != '='))
  let attached := cs.dropWhile (· != '=')
  match v.flags.find? (fun f => f.name == name), v.parameters.find? fun p => p.name == name with
  | some f, _ => (if attached.isEmpty then [.flag f] else [.misuse], false)
  | none, some p =>
    match attached with
    | [] => withNext p next
    | _ :: value => ([.parameter p (String.ofList value)], false)
  | none, none => ([.misuse], false)

/-- The words that an argument means, and whether they use the next argument. -/
def argument (v : Vocabulary) (arg : String) (next : Option String) : List Word × Bool :=
  match arg.toList with
  | '-' :: '-' :: cs => v.named next cs
  | '-' :: c :: cs => v.letters next (c :: cs)
  | _ => ([.source arg], false)

/-- The words that arguments mean. -/
def words (v : Vocabulary) : List String → List Word
  | [] => []
  | [arg] => if arg = "--" then [] else (v.argument arg none).1
  | arg :: next :: rest =>
    if arg = "--" then (next :: rest).map .source
    else
      let (words', used) := v.argument arg (some next)
      words' ++ if used then words v rest else words v (next :: rest)

end Vocabulary

end DesignTokens.Command

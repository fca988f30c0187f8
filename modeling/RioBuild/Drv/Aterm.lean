import Mathlib.Data.Char
import Mathlib.Data.Finset.Basic
import Mathlib.Data.List.Lex
import RioBuild.Lib.Grammar
import RioBuild.Lib.OrdMap

namespace RioBuild.Drv

open Lib

def maxAtermListItems : Nat := 1048576

def maxHashRecursionDepth : Nat := 512

inductive DerivationError
  | unexpectedEof
  | expected (expected got : Text)
  | invalidEscape (c : Char)
  | expectedStringStart
  | emptyOutputName (index : Nat)
  | noOutputs
  | collectionTooLarge (items : Nat)
  | inputNotFound (path : Text)
  | cycleDetected (path : Text)
  | recursionLimitExceeded (path : Text)
  deriving DecidableEq, Repr

theorem out_ne_nil : "out".toList ≠ [] := by decide

/-- An output always has a name. -/
structure DerivationOutput where
  name : Text
  path : Text
  hashAlgo : Text
  hash : Text
  named : name ≠ []
  deriving DecidableEq

def DerivationOutput.new (name path hashAlgo hash : Text) :
    Except DerivationError DerivationOutput :=
  if h : name = [] then .error (.emptyOutputName 0) else .ok ⟨name, path, hashAlgo, hash, h⟩

structure Derivation where
  outputs : List DerivationOutput
  inputDrvs : OrdMap Text (OrdSet Text)
  inputSrcs : OrdSet Text
  platform : Text
  builder : Text
  args : List Text
  env : OrdMap Text Text
  deriving DecidableEq

structure BasicDerivation where
  outputs : List DerivationOutput
  inputSrcs : OrdSet Text
  platform : Text
  builder : Text
  args : List Text
  env : OrdMap Text Text
  deriving DecidableEq

def DerivationOutput.isFixed (o : DerivationOutput) : Bool :=
  o.name = ['o', 'u', 't'] ∧ o.hashAlgo ≠ [] ∧ o.hash ≠ []

def Derivation.fixedOutput (d : Derivation) : Option DerivationOutput :=
  match d.outputs with
  | [o] => if o.isFixed then some o else none
  | _ => none

def Derivation.hasCaFloatingOutputs (d : Derivation) : Bool :=
  d.outputs.any fun o => o.hashAlgo ≠ [] ∧ o.hash = []

def escape : Char → Text
  | '\\' => ['\\', '\\']
  | '"' => ['\\', '"']
  | '\n' => ['\\', 'n']
  | '\r' => ['\\', 'r']
  | '\t' => ['\\', 't']
  | c => [c]

def writeAtermString (s : Text) : Text := '"' :: s.flatMap escape ++ ['"']

def writeList {α : Type} (item : α → Text) (l : List α) : Text :=
  '[' :: [','].intercalate (l.map item) ++ [']']

def writeOutput (maskPaths : Bool) (o : DerivationOutput) : Text :=
  '(' :: writeAtermString o.name ++ ',' :: writeAtermString (if maskPaths then [] else o.path) ++
    ',' :: writeAtermString o.hashAlgo ++ ',' :: writeAtermString o.hash ++ [')']

def writeAtermOutputs (outputs : List DerivationOutput) (maskPaths : Bool) : Text :=
  writeList (writeOutput maskPaths) outputs

def writeInputDrv (drv : Text × OrdSet Text) : Text :=
  '(' :: writeAtermString drv.1 ++ ',' :: writeList writeAtermString drv.2.elems ++ [')']

def writeAtermInputDrvs (drvs : List (Text × OrdSet Text)) : Text := writeList writeInputDrv drvs

def writeVar (maskEnvKeys : Option (Finset Text)) (var : Text × Text) : Text :=
  '(' :: writeAtermString var.1 ++
    ',' :: writeAtermString (if maskEnvKeys.any (var.1 ∈ ·) then [] else var.2) ++ [')']

def writeAtermTail (inputSrcs : OrdSet Text) (platform builder : Text) (args : List Text)
    (env : OrdMap Text Text) (maskEnvKeys : Option (Finset Text)) : Text :=
  writeList writeAtermString inputSrcs.elems ++ ',' :: writeAtermString platform ++
    ',' :: writeAtermString builder ++ ',' :: writeList writeAtermString args ++
    ',' :: writeList (writeVar maskEnvKeys) env.entries ++ [')']

def deriveOpen : Text := ['D', 'e', 'r', 'i', 'v', 'e', '(']

def Derivation.toAterm (d : Derivation) : Text :=
  deriveOpen ++ writeAtermOutputs d.outputs false ++ ',' :: writeAtermInputDrvs d.inputDrvs.entries
    ++ ',' :: writeAtermTail d.inputSrcs d.platform d.builder d.args d.env none

def replaceInputs (inputRewrites : OrdMap Text Text) :
    List (Text × OrdSet Text) → OrdMap Text (OrdSet Text) →
      Except DerivationError (OrdMap Text (OrdSet Text))
  | [], replaced => .ok replaced
  | (drvPath, names) :: drvs, replaced =>
    match inputRewrites.get? drvPath with
    | none => .error (.inputNotFound drvPath)
    | some key =>
      let known := (replaced.get? key).getD .empty
      replaceInputs inputRewrites drvs (replaced.insert key (OrdSet.extend known names.elems))

def Derivation.toAtermModulo (d : Derivation) (inputRewrites : OrdMap Text Text)
    (maskOutputs : Bool) : Except DerivationError Text := do
  let inputs ← replaceInputs inputRewrites d.inputDrvs.entries .empty
  let maskEnv := if maskOutputs then some (d.outputs.map (·.name)).toFinset else none
  return deriveOpen ++ writeAtermOutputs d.outputs maskOutputs ++
    ',' :: writeAtermInputDrvs inputs.entries ++
    ',' :: writeAtermTail d.inputSrcs d.platform d.builder d.args d.env maskEnv

def BasicDerivation.toAterm (d : BasicDerivation) : Text :=
  deriveOpen ++ writeAtermOutputs d.outputs false ++ [',', '[', ']'] ++
    ',' :: writeAtermTail d.inputSrcs d.platform d.builder d.args d.env none

abbrev AtermReader := TextReader DerivationError

def peek : AtermReader (Option Char) := fun s => .ok (s.head?, s)

def advance : AtermReader Unit := fun s => .ok ((), s.tail)

def expect (expected : Text) : AtermReader Unit := fun s =>
  if expected.isPrefixOf s then .ok ((), s.drop expected.length)
  else .error (.expected expected (s.take (max expected.length 10)))

def unescape : Char → Option Char
  | 'n' => some '\n'
  | 'r' => some '\r'
  | 't' => some '\t'
  | '\\' => some '\\'
  | '"' => some '"'
  | _ => none

def stringBody (result : Text) : Text → Except DerivationError (Text × Text)
  | [] => .error .unexpectedEof
  | '"' :: rest => .ok (result, rest)
  | ['\\'] => .error .unexpectedEof
  | '\\' :: e :: rest =>
    match unescape e with
    | some c => stringBody (result ++ [c]) rest
    | none => .error (.invalidEscape e)
  | c :: rest => stringBody (result ++ [c]) rest

def parseString : AtermReader Text := do
  if (← peek) ≠ some '"' then throw .expectedStringStart
  advance
  fun s => stringBody [] s

/-- The loop over the items, with room for `left` more of them.  An item is told how many there
are before it. -/
def parseItems {α : Type} (item : Nat → AtermReader α) : Nat → List α → AtermReader (List α)
  | 0, items => throw (.collectionTooLarge items.length)
  | left + 1, items => do
    let a ← item items.length
    match ← peek with
    | some ',' => do
      advance
      parseItems item left (items ++ [a])
    | some ']' => do
      advance
      return items ++ [a]
    | _ => throw .unexpectedEof

def parseList {α : Type} (item : Nat → AtermReader α) : AtermReader (List α) := do
  expect ['[']
  if (← peek) = some ']' then do
    advance
    return []
  else parseItems item maxAtermListItems []

def parseStringList : AtermReader (List Text) := parseList fun _ => parseString

def parseOutput (i : Nat) : AtermReader DerivationOutput := do
  expect ['(']
  let name ← parseString
  expect [',']
  let path ← parseString
  expect [',']
  let hashAlgo ← parseString
  expect [',']
  let hash ← parseString
  expect [')']
  match DerivationOutput.new name path hashAlgo hash with
  | .ok o => return o
  | .error _ => throw (.emptyOutputName i)

def parseOutputs : AtermReader (List DerivationOutput) := parseList parseOutput

def parseInputDrv : AtermReader (Text × OrdSet Text) := do
  expect ['(']
  let drvPath ← parseString
  expect [',']
  let names ← parseStringList
  expect [')']
  return (drvPath, OrdSet.ofList names)

def parseInputDrvs : AtermReader (OrdMap Text (OrdSet Text)) := do
  let drvs ← parseList fun _ => parseInputDrv
  return OrdMap.ofList drvs

def parseVar : AtermReader (Text × Text) := do
  expect ['(']
  let key ← parseString
  expect [',']
  let value ← parseString
  expect [')']
  return (key, value)

def parseEnv : AtermReader (OrdMap Text Text) := do
  let vars ← parseList fun _ => parseVar
  return OrdMap.ofList vars

def parseDerivation : AtermReader Derivation := do
  expect deriveOpen
  let outputs ← parseOutputs
  if outputs = [] then throw .noOutputs
  expect [',']
  let inputDrvs ← parseInputDrvs
  expect [',']
  let inputSrcs ← parseStringList
  expect [',']
  let platform ← parseString
  expect [',']
  let builder ← parseString
  expect [',']
  let args ← parseStringList
  expect [',']
  let env ← parseEnv
  expect [')']
  return ⟨outputs, inputDrvs, OrdSet.ofList inputSrcs, platform, builder, args, env⟩

/-- What follows the term is not looked at. -/
def Derivation.parse (input : Text) : Except DerivationError Derivation :=
  (parseDerivation.run input).map Prod.fst

end RioBuild.Drv

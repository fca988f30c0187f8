import RioBuild.Castore.Types
import RioBuild.Drv.Aterm
import RioBuild.Lib.Maps

/-! Modular derivation hashes.  SHA-256 is any function from texts to digests. -/

namespace RioBuild.Drv

open Lib Castore

def hexDigit (n : Nat) : Char := Nat.digitChar (n % 16)

def hexEncode (d : Digest) : Text :=
  d.1.flatMap fun b => [hexDigit (b.toNat / 16), hexDigit b.toNat]

structure HashState where
  hashCache : Map Text Digest
  visiting : Finset Text

abbrev HashM (α : Type) := HashState → Except DerivationError α × HashState

section Inner

variable (sha256 : Text → Digest) (resolveInput : Text → Option Derivation)

def fixedFingerprint (o : DerivationOutput) : Text :=
  "fixed:out:".toList ++ o.hashAlgo ++ ':' :: o.hash ++ ':' :: o.path

def hashInputs (hashInput : Derivation → Text → HashM Digest) :
    List Text → OrdMap Text Text → HashM (OrdMap Text Text)
  | [], inputRewrites, s => (.ok inputRewrites, s)
  | path :: paths, inputRewrites, s =>
    match resolveInput path with
    | none => (.error (.inputNotFound path), s)
    | some drv =>
      match hashInput drv path s with
      | (.error e, s) => (.error e, s)
      | (.ok hash, s) => hashInputs hashInput paths (inputRewrites.insert path (hexEncode hash)) s

/-- The closure between the insertion into `visiting` and the removal. -/
def computeHash (hashInput : Derivation → Text → HashM Digest) (drv : Derivation)
    (maskOutputs : Bool) : HashM Digest := fun s =>
  match drv.fixedOutput with
  | some o => (.ok (sha256 (fixedFingerprint o)), s)
  | none =>
    match hashInputs resolveInput hashInput drv.inputDrvs.keys .empty s with
    | (.error e, s) => (.error e, s)
    | (.ok inputRewrites, s) => ((drv.toAtermModulo inputRewrites maskOutputs).map sha256, s)

def unlessKnown (path : Text) (maskOutputs : Bool) (rest : HashM Digest) : HashM Digest := fun s =>
  match if maskOutputs then none else s.hashCache.lookup path with
  | some hash => (.ok hash, s)
  | none => if path ∈ s.visiting then (.error (.cycleDetected path), s) else rest s

def whileVisiting (path : Text) (maskOutputs : Bool) (body : HashM Digest) : HashM Digest :=
  fun s =>
  let (result, s) := body { s with visiting := insert path s.visiting }
  let s := { s with visiting := s.visiting.erase path }
  match result with
  | .error e => (.error e, s)
  | .ok hash =>
    (.ok hash, if maskOutputs then s else { s with hashCache := s.hashCache.insert path hash })

def hashDerivationModuloInner : (left : Nat) → Derivation → Text → Bool → HashM Digest
  | 0, _, path, maskOutputs =>
    unlessKnown path maskOutputs fun s => (.error (.recursionLimitExceeded path), s)
  | left + 1, drv, path, maskOutputs =>
    unlessKnown path maskOutputs <| whileVisiting path maskOutputs <|
      computeHash sha256 resolveInput
        (fun input inputPath => hashDerivationModuloInner left input inputPath false)
        drv maskOutputs

def hashDerivationModulo (drv : Derivation) (path : Text) (hashCache : Map Text Digest) :
    Except DerivationError Digest × Map Text Digest :=
  let (result, s) := hashDerivationModuloInner sha256 resolveInput maxHashRecursionDepth drv path
    drv.hasCaFloatingOutputs ⟨hashCache, ∅⟩
  (result, s.hashCache)

def hashCalls : List (Derivation × Text) → Map Text Digest →
    List (Except DerivationError Digest) × Map Text Digest
  | [], hashCache => ([], hashCache)
  | (drv, path) :: calls, hashCache =>
    let (result, hashCache) := hashDerivationModulo sha256 resolveInput drv path hashCache
    let (results, hashCache) := hashCalls calls hashCache
    (result :: results, hashCache)

end Inner

end RioBuild.Drv

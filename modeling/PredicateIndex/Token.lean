import PredicateIndex.Hex

/-!
# Checkpoint tokens

A token names one checkpoint of every group it covers, and later checkpoints
have greater tokens. Its text, sixteen hexadecimal digits, is also the name of
the directory that holds the checkpoint's files. Directory names are read more
freely than they are written: either case, any number of digits whose value is
a 64-bit word, and one plus sign in front.
-/

set_option autoImplicit false

namespace PredicateIndex

structure Token where
  value : UInt64
  deriving DecidableEq, Repr, Inhabited

namespace Token

def text (token : Token) : String := Hex.ofNat 16 token.value.toNat

def unsigned : List Char → List Char
  | '+' :: rest => rest
  | cs => cs

def ofDirName? (name : String) : Option Token :=
  match unsigned name.toList with
  | [] => none
  | c :: cs =>
    match Hex.value? (c :: cs) with
    | some n => if n < UInt64.size then some ⟨UInt64.ofNat n⟩ else none
    | none => none

def newest? : List Token → Option Token
  | [] => none
  | token :: rest =>
    match newest? rest with
    | none => some token
    | some other => if token.value < other.value then some other else some token

end Token

end PredicateIndex

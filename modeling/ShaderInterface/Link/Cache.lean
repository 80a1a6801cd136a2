import ShaderInterface.Link.Key
import Std.Data.HashMap.Basic

/-!
# Remembered links

A cache remembers the links of one linker by digests of the keys of their requests, and counts how
often it was asked for a link that it remembered. Failed links are not remembered. The key says
nothing about the linker, so a change of the options forgets all links.

The digest is a parameter: a cache is as good as the function that it is given, which must tell
apart the keys that it meets.
-/

namespace ShaderInterface

/-- A linker with the links that it has made, by the digests of their keys, and the number of
requests that were answered from memory (`hits`) or not (`misses`). -/
structure LinkCache (H : Type) [DecidableEq H] [Hashable H] where
  linker : Linker
  entries : Std.HashMap H LinkedPair
  hits : Nat
  misses : Nat

namespace LinkCache

variable {H : Type} [DecidableEq H] [Hashable H]

/-- Where a linked pair comes from. -/
inductive Provenance where
  | memory
  | linked
deriving DecidableEq, Repr

/-- The cache of a linker that has made no link. -/
def empty (linker : Linker) : LinkCache H := ⟨linker, ∅, 0, 0⟩

/-- The number of links that are remembered. -/
def size (cache : LinkCache H) : Nat :=
  cache.entries.size

/-- No link is remembered. -/
def isEmpty (cache : LinkCache H) : Bool :=
  cache.entries.isEmpty

/-- Forgets all links. -/
def clear (cache : LinkCache H) : LinkCache H :=
  { cache with entries := ∅ }

/-- Changes the options, which forgets all links unless the options are the same. -/
def setOptions (cache : LinkCache H) (options : Options) : LinkCache H :=
  if cache.linker.options = options then cache
  else { cache with linker := { cache.linker with options }, entries := ∅ }

/-- Answers a request from memory, or else links it and remembers the link under the digest of its
key. A request without a key cannot be linked either, and is answered with the cause that its link
gives. -/
def link (digest : List UInt8 → H) (cache : LinkCache H) (request : LinkRequest) :
    Except LinkError (Provenance × LinkedPair) × LinkCache H :=
  let missed := { cache with misses := cache.misses + 1 }
  match LinkKey.ofRequest request with
  | .error cause =>
    match cache.linker.link request with
    | .error first => (.error first, missed)
    | .ok _ => (.error cause, missed)
  | .ok key =>
    match cache.entries[digest key.bytes]? with
    | some pair => (.ok (.memory, pair), { cache with hits := cache.hits + 1 })
    | none =>
      match cache.linker.link request with
      | .error cause => (.error cause, missed)
      | .ok pair =>
        (.ok (.linked, pair),
          { missed with entries := cache.entries.insert (digest key.bytes) pair })

end LinkCache

end ShaderInterface

import Lsl.Fingerprint

/-! Kept outputs. A cache holds outputs of earlier compiles under the fingerprints of what they were
made from, at most one under each. -/
namespace Lsl

structure CacheEntry where
  key : Bytes
  backend : String
  /-- The compile that made it. -/
  id : String
  output : Bytes
  warnings : Int
  diagnostics : List Diagnostic
  /-- The time at which it was made, in nanoseconds. -/
  created : Int

structure Cache where
  entries : List CacheEntry := []

inductive CacheError where
  /-- The output is empty. -/
  | emptyOutput

def CacheError.message : CacheError → String
  | emptyOutput => "saving entry"

namespace Cache

def size (c : Cache) : Nat := c.entries.length

def get? (c : Cache) (key : Bytes) : Option CacheEntry := c.entries.find? (·.key == key)

def erase (c : Cache) (key : Bytes) : Cache := ⟨c.entries.filter (·.key != key)⟩

/-- Keeps an output in place of what was under its key. -/
def put (c : Cache) (e : CacheEntry) : Except CacheError Cache :=
  if e.output.isEmpty then .error .emptyOutput else .ok ⟨(c.erase e.key).entries ++ [e]⟩

/-- Removes what was made before a time, and tells how many outputs that were. -/
def prune (c : Cache) (cutoff : Int) : Cache × Nat :=
  let kept := c.entries.filter fun e => cutoff ≤ e.created
  (⟨kept⟩, c.entries.length - kept.length)

end Cache

/-- The result of a compile that may have been kept. A kept one comes without its program. -/
structure CachedResult where
  program : Option Program
  output : Bytes
  backend : String
  warnings : Int
  diagnostics : List Diagnostic

def Compiled.result (c : Compiled) : CachedResult :=
  { program := some c.program, output := c.output, backend := c.backend.name,
    warnings := c.warnings, diagnostics := c.diagnostics }

def CacheEntry.result (e : CacheEntry) : CachedResult :=
  { program := none, output := e.output, backend := e.backend, warnings := e.warnings,
    diagnostics := e.diagnostics }

def Compiled.entry (c : Compiled) (key : Bytes) (id : String) (now : Int) : CacheEntry :=
  { key, id, created := now, backend := c.backend.name, output := c.output,
    warnings := c.warnings, diagnostics := c.diagnostics }

inductive CachedCompileError where
  | fingerprint (cause : FingerprintError)
  | compile (cause : CompileError)
  | cache (cause : CacheError)

def CachedCompileError.message : CachedCompileError → String
  | fingerprint e => e.message
  | compile e => e.message
  | cache e => e.message

/-- What a compile through a cache answers: the cache after it, whether the output was kept from
before, and the result. -/
structure CacheAnswer where
  cache : Cache
  hit : Bool
  result : CachedResult

/-- Compiles a script unless its output is kept, and keeps it. Failed compiles are not kept. -/
def Cache.compile (c : Cache) (id : String) (now : Int) (script : Option Script)
    (o : CompileOptions) : Except CachedCompileError CacheAnswer := do
  let key ← (o.key script).mapError .fingerprint
  match c.get? key with
  | some e => return { cache := c, hit := true, result := e.result }
  | none =>
    let r ← (Lsl.compile script o).mapError .compile
    let c ← (c.put (r.entry key id now)).mapError .cache
    return { cache := c, hit := false, result := r.result }

end Lsl

import Lsl.Cache

/-! Caches as bytes: an array of entries, each an array of its fields in order. -/
namespace Lsl

open Cbor (Item)

def storedArray (elements : List Bytes) : Bytes := Item.head 4 elements.length ++ elements.flatten

def storedText (s : String) : Bytes := Item.ofText (Text.bytes s)

def storedBytes (bs : Bytes) : Bytes := Item.head 2 bs.length ++ bs

namespace Diagnostic

def encode (d : Diagnostic) : Bytes :=
  storedArray [Item.ofInt d.pos.line, Item.ofInt d.pos.column, Item.ofInt d.kind.code,
    Item.ofInt (if d.isError then 0 else 1), storedText d.message]

end Diagnostic

namespace CacheEntry

def encode (e : CacheEntry) : Bytes :=
  storedArray [storedBytes e.key, storedText e.backend, storedText e.id, storedBytes e.output,
    Item.ofInt e.warnings, storedArray (e.diagnostics.map (·.encode)), Item.ofInt e.created]

end CacheEntry

def Cache.encode (c : Cache) : Bytes := storedArray (c.entries.map (·.encode))

namespace Cbor.Item

def whole? : Item → Option Int
  | uint n => some n
  | nint n => some (-1 - n)
  | _ => none

def asText? : Item → Option String
  | text chunks => Text.ofBytes? chunks.flatten
  | _ => none

def content? : Item → Option Bytes
  | bytes content => some content
  | _ => none

def elements? : Item → Option (List Item)
  | array items => some items
  | _ => none

end Cbor.Item

def Diagnostic.ofItem? (i : Item) : Option Diagnostic := do
  match ← i.elements? with
  | [line, column, kind, severity, message] =>
    return { pos := { line := ← line.whole?, column := ← column.whole? }
             kind := .ofCode (← kind.whole?)
             severity := if (← severity.whole?) = 0 then .error else .warning
             message := ← message.asText? }
  | _ => none

def CacheEntry.ofItem? (i : Item) : Option CacheEntry := do
  match ← i.elements? with
  | [key, backend, id, output, warnings, diagnostics, created] =>
    return { key := ← key.content?, backend := ← backend.asText?, id := ← id.asText?
             output := ← output.content?, warnings := ← warnings.whole?
             diagnostics := ← (← diagnostics.elements?).mapM Diagnostic.ofItem?
             created := ← created.whole? }
  | _ => none

def Cache.decode? (bs : Bytes) : Option Cache := do
  return ⟨← (← (← Item.ofBytes? bs).elements?).mapM CacheEntry.ofItem?⟩

end Lsl

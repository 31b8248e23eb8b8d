import Lsl.Language.Ty

/-! The events a state can handle. Each has a fixed name and fixed parameter types; its number is
its bit in the event masks of an image. -/
namespace Lsl

/-- The number of an event. Only those with a signature belong to the language. -/
structure EventKind where
  code : UInt8
deriving DecidableEq

namespace EventKind

/-- The names and parameter types of the events, by number. -/
def signatures : List (String × List Ty) :=
  [("state_entry", []),
    ("state_exit", []),
    ("touch_start", [.integer]),
    ("touch", [.integer]),
    ("touch_end", [.integer]),
    ("collision_start", [.integer]),
    ("collision", [.integer]),
    ("collision_end", [.integer]),
    ("land_collision_start", [.vector]),
    ("land_collision", [.vector]),
    ("land_collision_end", [.vector]),
    ("timer", []),
    ("listen", [.integer, .string, .key, .string]),
    ("on_rez", [.integer]),
    ("sensor", [.integer]),
    ("no_sensor", []),
    ("control", [.key, .integer, .integer]),
    ("money", [.key, .integer]),
    ("email", [.string, .string, .string, .string, .integer]),
    ("at_target", [.integer, .vector, .vector]),
    ("not_at_target", []),
    ("at_rot_target", [.integer, .rotation, .rotation]),
    ("not_at_rot_target", []),
    ("run_time_permissions", [.integer]),
    ("changed", [.integer]),
    ("attach", [.key]),
    ("dataserver", [.key, .string]),
    ("link_message", [.integer, .integer, .string, .key]),
    ("moving_start", []),
    ("moving_end", []),
    ("object_rez", [.key]),
    ("remote_data", [.integer, .key, .key, .string, .integer, .string]),
    ("http_response", [.key, .integer, .list, .string]),
    ("http_request", [.key, .string, .string])]

def name (k : EventKind) : String :=
  match signatures[k.code.toNat]? with
  | some (n, _) => n
  | none => s!"EventKind({k.code})"

def params (k : EventKind) : List Ty :=
  match signatures[k.code.toNat]? with
  | some (_, ts) => ts
  | none => []

def ofName? (s : String) : Option EventKind :=
  (signatures.findIdx? (·.1 == s)).map fun i => ⟨UInt8.ofNat i⟩

/-- The bit of the event in a mask of 64 bits; numbers from 64 on have none. -/
def mask (k : EventKind) : UInt64 :=
  if k.code < 64 then 1 <<< k.code.toUInt64 else 0

end EventKind
end Lsl

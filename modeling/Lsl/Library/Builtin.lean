import Lsl.Library.Basic

/-! The library that scripts are compiled against when no other is given. -/
namespace Lsl

namespace LibraryFunction

/-- A function that every script may call. -/
def common (index : Int) (result : Ty) (name : String) (params : List Ty) : LibraryFunction :=
  { name, result, params, index }

/-- A function that only privileged scripts may call. -/
def guarded (index : Int) (result : Ty) (name : String) (params : List Ty) : LibraryFunction :=
  { name, result, params, privileged := true, index }

end LibraryFunction

open LibraryFunction in
/-- The functions of the usual library in the order of their indices. -/
def Library.builtin : Library := ⟨[
  common 0 .float "llSin" [.float],
  common 1 .float "llCos" [.float],
  common 2 .float "llTan" [.float],
  common 3 .float "llAtan2" [.float, .float],
  common 4 .float "llSqrt" [.float],
  common 5 .float "llPow" [.float, .float],
  common 6 .integer "llAbs" [.integer],
  common 7 .float "llFabs" [.float],
  common 8 .float "llFrand" [.float],
  common 9 .integer "llFloor" [.float],
  common 10 .integer "llCeil" [.float],
  common 11 .integer "llRound" [.float],
  common 12 .float "llVecMag" [.vector],
  common 13 .vector "llVecNorm" [.vector],
  common 14 .float "llVecDist" [.vector, .vector],
  common 15 .vector "llRot2Euler" [.rotation],
  common 16 .rotation "llEuler2Rot" [.vector],
  common 17 .rotation "llAxes2Rot" [.vector, .vector, .vector],
  common 18 .vector "llRot2Fwd" [.rotation],
  common 19 .vector "llRot2Left" [.rotation],
  common 20 .vector "llRot2Up" [.rotation],
  common 21 .rotation "llRotBetween" [.vector, .vector],
  common 22 .void "llWhisper" [.integer, .string],
  common 23 .void "llSay" [.integer, .string],
  common 24 .void "llShout" [.integer, .string],
  common 25 .integer "llListen" [.integer, .string, .key, .vector],
  common 26 .void "llListenControl" [.integer, .integer],
  common 27 .void "llListenRemove" [.integer],
  common 28 .void "llSensor" [.string, .key, .integer, .float, .float],
  common 29 .void "llSensorRepeat" [.string, .key, .integer, .float, .float, .float],
  common 30 .void "llSensorRemove" [],
  common 31 .string "llDetectedName" [.integer],
  common 32 .key "llDetectedKey" [.integer],
  common 33 .key "llDetectedOwner" [.integer],
  common 34 .integer "llDetectedType" [.integer],
  common 35 .vector "llDetectedPos" [.integer],
  common 36 .vector "llDetectedVel" [.integer],
  common 37 .vector "llDetectedGrab" [.integer],
  common 38 .rotation "llDetectedRot" [.integer],
  common 39 .integer "llDetectedGroup" [.integer],
  common 40 .integer "llDetectedLinkNumber" [.integer],
  common 41 .void "llDie" [],
  common 42 .float "llGround" [.vector],
  common 43 .float "llCloud" [.vector],
  common 44 .vector "llWind" [.vector],
  common 45 .void "llSetStatus" [.integer, .integer],
  common 46 .integer "llGetStatus" [.integer],
  common 47 .void "llSetScale" [.vector],
  common 48 .vector "llGetScale" [],
  common 49 .void "llSetColor" [.vector, .integer],
  common 50 .float "llGetAlpha" [.integer],
  common 51 .void "llSetAlpha" [.float, .integer],
  common 52 .vector "llGetColor" [.integer],
  common 53 .void "llSetTexture" [.string, .integer],
  common 82 .float "llGetTime" [],
  common 83 .void "llResetTime" [],
  common 95 .string "llGetSubString" [.string, .integer, .integer],
  common 107 .void "llSetTimerEvent" [.float],
  common 115 .key "llGetOwner" [],
  common 128 .integer "llStringLength" [.string],
  common 158 .void "llMessageLinked" [.integer, .integer, .string, .key],
  common 175 .key "llGetKey" [],
  common 185 .integer "llGetListLength" [.list],
  common 191 .string "llList2String" [.list, .integer],
  common 220 .void "llResetScript" [],
  common 330 .key "llHTTPRequest" [.string, .list, .string],
  guarded 500 .void "llGodLikeRezObject" [.key, .vector],
  guarded 501 .void "llSetInventoryPermMask" [.string, .integer, .integer],
  guarded 502 .void "llSetObjectPermMask" [.integer, .integer]]⟩

end Lsl

import Iridium.Drivers.Video

/-!
# The screen service

`uapi/video/screen.c`. A request is a word; a command comes as a burst of words, the
first naming it and the others its arguments. Where the burst stands is kept in six static
variables of two functions.
-/

namespace Iridium

/-- `UAPI_STATUS_T`. -/
inductive UAPI_STATUS_T where
  | UAPI_OK
  | UAPI_INVALID_ARG
  | UAPI_INVALID_SERVICE
  | UAPI_PERMISSION_DENIED
  | UAPI_CMDBURST_NOT_STARTED
  | UAPI_CMDBURST_CONTINUE
  | UAPI_UNKNOWN_ERROR
  deriving DecidableEq, Repr

open UAPI_STATUS_T

/-- The number of a status. -/
def UAPI_STATUS_T.code : UAPI_STATUS_T → UInt64
  | UAPI_OK => 0
  | UAPI_INVALID_ARG => 1
  | UAPI_INVALID_SERVICE => 2
  | UAPI_PERMISSION_DENIED => 3
  | UAPI_CMDBURST_NOT_STARTED => 4
  | UAPI_CMDBURST_CONTINUE => 5
  | UAPI_UNKNOWN_ERROR => 6

def SCREENUAPI_CLEARSCREEN : UInt64 := 0
def SCREENUAPI_PUTPIXEL : UInt64 := 1

/-- The static variables of `screen_uapi` and `process_req`. -/
structure ScreenUapi where
  cmd_bursting : Bool
  saved_req : UInt64
  color : UInt64
  x : UInt64
  y : UInt64
  data_index : UInt8

/-- `process_req`. -/
def process_req (s : ScreenUapi) (fb : Lfb) (saved_req req : UInt64) :
    Kern (UAPI_STATUS_T × ScreenUapi × Lfb) :=
  if saved_req = SCREENUAPI_CLEARSCREEN then do
    let s := if s.data_index = 0 then { s with color := req } else s
    let s := { s with data_index := s.data_index + 1 }
    if s.data_index ≥ 1 then do
      let fb ← lfb_clear_screen fb s.color.toUInt32
      return (UAPI_OK, { s with data_index := 0 }, fb)
    return (UAPI_CMDBURST_CONTINUE, s, fb)
  else if saved_req = SCREENUAPI_PUTPIXEL then
    let s :=
      if s.data_index = 0 then { s with x := req }
      else if s.data_index = 1 then { s with y := req }
      else if s.data_index = 2 then { s with color := req }
      else s
    let s := { s with data_index := s.data_index + 1 }
    if s.data_index ≥ 3 then
      .ok (UAPI_OK, { s with data_index := 0 },
        lfb_put_pixel fb s.x.toUInt32 s.y.toUInt32 s.color.toUInt32)
    else .ok (UAPI_CMDBURST_CONTINUE, s, fb)
  else .ok (UAPI_CMDBURST_CONTINUE, s, fb)

/-- `screen_uapi`; `verified` says whether `verify_drvmaster` let the caller pass. It
never assigns its output. -/
def screen_uapi (s : ScreenUapi) (fb : Lfb) (verified : Bool) (req : UInt64) :
    Kern (UAPI_STATUS_T × ScreenUapi × Lfb) :=
  if !verified then .ok (UAPI_PERMISSION_DENIED, s, fb)
  else if !s.cmd_bursting then
    if req = SCREENUAPI_CLEARSCREEN then
      .ok (UAPI_OK, { s with saved_req := SCREENUAPI_CLEARSCREEN, cmd_bursting := true }, fb)
    else if req = SCREENUAPI_PUTPIXEL then
      .ok (UAPI_OK, { s with saved_req := SCREENUAPI_PUTPIXEL, cmd_bursting := true }, fb)
    else .ok (UAPI_OK, s, fb)
  else do
    let (ret, s, fb) ← process_req s fb s.saved_req req
    if ret ≠ UAPI_CMDBURST_CONTINUE then
      return (ret, { s with saved_req := 0, cmd_bursting := false }, fb)
    return (ret, s, fb)

end Iridium

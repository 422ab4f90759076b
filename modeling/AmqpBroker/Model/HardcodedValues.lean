import Mathlib.Data.List.Basic

/-!
# Hardcoded arguments

The argument bytes that the broker sends without computing them, each as far as its size
constant in `hardcoded_values.c` reaches.
-/

namespace AmqpBroker

/-- `CONNECTION_START_ARGS`. -/
def connectionStartArgs : List UInt8 :=
  [0x00, 0x09, 0x00, 0x00, 0x01, 0xd2, 0x0c, 0x63, 0x61, 0x70, 0x61, 0x62, 0x69, 0x6c, 0x69, 0x74,
    0x69, 0x65, 0x73, 0x46, 0x00, 0x00, 0x00, 0xc7, 0x12, 0x70, 0x75, 0x62, 0x6c, 0x69, 0x73,
    0x68, 0x65, 0x72, 0x5f, 0x63, 0x6f, 0x6e, 0x66, 0x69, 0x72, 0x6d, 0x73, 0x74, 0x01, 0x1a,
    0x65, 0x78, 0x63, 0x68, 0x61, 0x6e, 0x67, 0x65, 0x5f, 0x65, 0x78, 0x63, 0x68, 0x61, 0x6e,
    0x67, 0x65, 0x5f, 0x62, 0x69, 0x6e, 0x64, 0x69, 0x6e, 0x67, 0x73, 0x74, 0x01, 0x0a, 0x62,
    0x61, 0x73, 0x69, 0x63, 0x2e, 0x6e, 0x61, 0x63, 0x6b, 0x74, 0x01, 0x16, 0x63, 0x6f, 0x6e,
    0x73, 0x75, 0x6d, 0x65, 0x72, 0x5f, 0x63, 0x61, 0x6e, 0x63, 0x65, 0x6c, 0x5f, 0x6e, 0x6f,
    0x74, 0x69, 0x66, 0x79, 0x74, 0x01, 0x12, 0x63, 0x6f, 0x6e, 0x6e, 0x65, 0x63, 0x74, 0x69,
    0x6f, 0x6e, 0x2e, 0x62, 0x6c, 0x6f, 0x63, 0x6b, 0x65, 0x64, 0x74, 0x01, 0x13, 0x63, 0x6f,
    0x6e, 0x73, 0x75, 0x6d, 0x65, 0x72, 0x5f, 0x70, 0x72, 0x69, 0x6f, 0x72, 0x69, 0x74, 0x69,
    0x65, 0x73, 0x74, 0x01, 0x1c, 0x61, 0x75, 0x74, 0x68, 0x65, 0x6e, 0x74, 0x69, 0x63, 0x61,
    0x74, 0x69, 0x6f, 0x6e, 0x5f, 0x66, 0x61, 0x69, 0x6c, 0x75, 0x72, 0x65, 0x5f, 0x63, 0x6c,
    0x6f, 0x73, 0x65, 0x74, 0x01, 0x10, 0x70, 0x65, 0x72, 0x5f, 0x63, 0x6f, 0x6e, 0x73, 0x75,
    0x6d, 0x65, 0x72, 0x5f, 0x71, 0x6f, 0x73, 0x74, 0x01, 0x0f, 0x64, 0x69, 0x72, 0x65, 0x63,
    0x74, 0x5f, 0x72, 0x65, 0x70, 0x6c, 0x79, 0x5f, 0x74, 0x6f, 0x74, 0x01, 0x0c, 0x63, 0x6c,
    0x75, 0x73, 0x74, 0x65, 0x72, 0x5f, 0x6e, 0x61, 0x6d, 0x65, 0x53, 0x00, 0x00, 0x00, 0x10,
    0x72, 0x61, 0x62, 0x62, 0x69, 0x74, 0x40, 0x6d, 0x79, 0x2d, 0x72, 0x61, 0x62, 0x62, 0x69,
    0x74, 0x09, 0x63, 0x6f, 0x70, 0x79, 0x72, 0x69, 0x67, 0x68, 0x74, 0x53, 0x00, 0x00, 0x00,
    0x37, 0x43, 0x6f, 0x70, 0x79, 0x72, 0x69, 0x67, 0x68, 0x74, 0x20, 0x28, 0x63, 0x29, 0x20,
    0x32, 0x30, 0x30, 0x37, 0x2d, 0x32, 0x30, 0x32, 0x32, 0x20, 0x56, 0x4d, 0x77, 0x61, 0x72,
    0x65, 0x2c, 0x20, 0x49, 0x6e, 0x63, 0x2e, 0x20, 0x6f, 0x72, 0x20, 0x69, 0x74, 0x73, 0x20,
    0x61, 0x66, 0x66, 0x69, 0x6c, 0x69, 0x61, 0x74, 0x65, 0x73, 0x2e, 0x0b, 0x69, 0x6e, 0x66,
    0x6f, 0x72, 0x6d, 0x61, 0x74, 0x69, 0x6f, 0x6e, 0x53, 0x00, 0x00, 0x00, 0x39, 0x4c, 0x69,
    0x63, 0x65, 0x6e, 0x73, 0x65, 0x64, 0x20, 0x75, 0x6e, 0x64, 0x65, 0x72, 0x20, 0x74, 0x68,
    0x65, 0x20, 0x4d, 0x50, 0x4c, 0x20, 0x32, 0x2e, 0x30, 0x2e, 0x20, 0x57, 0x65, 0x62, 0x73,
    0x69, 0x74, 0x65, 0x3a, 0x20, 0x68, 0x74, 0x74, 0x70, 0x73, 0x3a, 0x2f, 0x2f, 0x72, 0x61,
    0x62, 0x62, 0x69, 0x74, 0x6d, 0x71, 0x2e, 0x63, 0x6f, 0x6d, 0x08, 0x70, 0x6c, 0x61, 0x74,
    0x66, 0x6f, 0x72, 0x6d, 0x53, 0x00, 0x00, 0x00, 0x11, 0x45, 0x72, 0x6c, 0x61, 0x6e, 0x67,
    0x2f, 0x4f, 0x54, 0x50, 0x20, 0x32, 0x35, 0x2e, 0x30, 0x2e, 0x34, 0x07, 0x70, 0x72, 0x6f,
    0x64, 0x75, 0x63, 0x74, 0x53, 0x00, 0x00, 0x00, 0x08, 0x52, 0x61, 0x62, 0x62, 0x69, 0x74,
    0x4d, 0x51, 0x07, 0x76, 0x65, 0x72, 0x73, 0x69, 0x6f, 0x6e, 0x53, 0x00, 0x00, 0x00, 0x06,
    0x33, 0x2e, 0x31, 0x30, 0x2e, 0x37, 0x00, 0x00, 0x00, 0x0e, 0x41, 0x4d, 0x51, 0x50, 0x4c,
    0x41, 0x49, 0x4e, 0x20, 0x50, 0x4c, 0x41, 0x49, 0x4e, 0x00, 0x00, 0x00, 0x05, 0x65, 0x6e,
    0x5f, 0x55, 0x53]

/-- `CONNECTION_TUNE_ARGS`: channel-max, frame-max 131072, heartbeat. -/
def connectionTuneArgs : List UInt8 :=
  [0x07, 0xff, 0x00, 0x02, 0x00, 0x00, 0x00, 0x3c]

/-- `CONNECTION_OPEN_OK_ARGS`. -/
def connectionOpenOkArgs : List UInt8 := [0x00]

/-- `ARGS_EMPTY`. -/
def argsEmpty : List UInt8 := []

/-- `CHANNEL_OPEN_OK_ARGS`. -/
def channelOpenOkArgs : List UInt8 := [0x00, 0x00, 0x00, 0x00]

/-- The three bytes that lie behind `BASIC_CONSUME_OK_ARGS` in memory. -/
structure PastConsumeOkArgs where
  first : UInt8 := 0
  second : UInt8 := 0
  third : UInt8 := 0
  deriving DecidableEq, Repr

/-- The `BASIC_CONSUME_OK_ARGS_SIZE` bytes from `BASIC_CONSUME_OK_ARGS` on.

The size constant is 13 but the array has only ten bytes, its terminator included; the
three bytes after it are whatever lies there. -/
def basicConsumeOkArgs (past : PastConsumeOkArgs) : List UInt8 :=
  [0x00, 0x00, 0x00, 0x00, 0x00, 0x00, 0x00, 0x01, 0x00, 0x00, past.first, past.second, past.third]

/-- `BASIC_DELIVER_ARGS`. -/
def basicDeliverArgs : List UInt8 :=
  [0x1f, 0x61, 0x6d, 0x71, 0x2e, 0x63, 0x74, 0x61, 0x67, 0x2d, 0x56, 0x64, 0x34, 0x59, 0x53, 0x35,
    0x52, 0x49, 0x32, 0x34, 0x5f, 0x2d, 0x71, 0x48, 0x68, 0x61, 0x6e, 0x51, 0x4e, 0x51, 0x4a,
    0x67, 0x00, 0x00, 0x00, 0x00, 0x00, 0x00, 0x00, 0x01, 0x00, 0x00, 0x07, 0x63, 0x68, 0x65,
    0x65, 0x74, 0x6f, 0x73]

/-- `CONTENT_HEADER_PROPERTIES`. -/
def contentHeaderProperties : List UInt8 := [0x01]

end AmqpBroker

import TaintFlow.Replay.Json

/-!
# Documents

Traces and configurations come from texts, or from files that hold the UTF-8
encoding of a text. A `Document` says how one kind of them is read and how it is
called when it cannot be read.
-/

namespace TaintFlow

inductive DocumentError where
  | malformedTrace
  | malformedConfig
  | unreadableTrace (path : String)
  | unreadableConfig (path : String)
deriving DecidableEq

def DocumentError.message : DocumentError → String
  | .malformedTrace => "Failed to parse execution trace"
  | .malformedConfig => "Failed to parse replay configuration"
  | .unreadableTrace path => s!"Failed to read trace file {path}"
  | .unreadableConfig path => s!"Failed to read config file {path}"

/-- The text of a file, given its bytes if there is such a file. -/
def fileText? (content : Option ByteArray) : Option String :=
  content.bind String.fromUTF8?

def Trace.ofText (text : String) : Except DocumentError Trace :=
  match Trace.parse? text with
  | some trace => .ok trace
  | none => .error .malformedTrace

def Trace.ofFile (path : String) (content : Option ByteArray) : Except DocumentError Trace :=
  match fileText? content with
  | some text => Trace.ofText text
  | none => .error (.unreadableTrace path)

def ReplayConfig.ofText (text : String) : Except DocumentError ReplayConfig :=
  match ReplayConfig.parse? text with
  | some config => .ok config
  | none => .error .malformedConfig

def ReplayConfig.ofFile (path : String) (content : Option ByteArray) :
    Except DocumentError ReplayConfig :=
  match fileText? content with
  | some text => ReplayConfig.ofText text
  | none => .error (.unreadableConfig path)

end TaintFlow

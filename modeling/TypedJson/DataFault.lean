set_option autoImplicit false
set_option relaxedAutoImplicit false

namespace TypedJson

/-- Why bytes could not be taken from a source or handed to a sink: they are not the encoding of a
text, the sink accepts no more of them, or the device reports a fault of its own. -/
inductive DataFault where
  | malformedText
  | refused
  | device (text : String)
  deriving DecidableEq, Repr

def DataFault.message : DataFault → String
  | .malformedText => "invalid UTF-8 data"
  | .refused => "failed to write whole buffer"
  | .device text => text

end TypedJson

/-!
# The UTF-8 bytes of a text
-/

namespace ContractScript.Text

/-- The UTF-8 bytes of a text, in order. -/
def utf8 (s : String) : List UInt8 :=
  s.toList.flatMap String.utf8EncodeChar

end ContractScript.Text

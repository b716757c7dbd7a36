/-!
# Bytes and text

Messages, files and request bodies are byte sequences. Main statement: the bytes of a text read back
as that text (`Bytes.toText?_ofText`).
-/

namespace Cutover

abbrev Bytes := List UInt8

namespace Bytes

def ofText (s : String) : Bytes := s.toByteArray.data.toList

/-- The text whose UTF-8 form the bytes are. -/
def toText? (b : Bytes) : Option String := String.fromUTF8? ⟨b.toArray⟩

theorem toText?_ofText (s : String) : toText? (ofText s) = some s := by
  have h : ByteArray.IsValidUTF8 ⟨s.toByteArray.data⟩ := s.isValidUTF8
  simp [toText?, ofText, String.fromUTF8?, h, String.fromUTF8]

end Bytes

end Cutover

/-!
# Bytes of a text
-/

namespace Stowage

def utf8Bytes (cs : List Char) : List UInt8 := cs.flatMap String.utf8EncodeChar

def isUtf8 (bs : List UInt8) : Bool := (String.fromUTF8? ⟨bs.toArray⟩).isSome

end Stowage

import MarkdownPage.Text.Lines

/-!
Text as bytes in UTF-8. Every text has its bytes, and reading them gives the text back; not all
bytes are those of a text.
-/

namespace MarkdownPage.Text

def toBytes (t : Text) : ByteArray := (String.ofList t).toUTF8

def ofBytes? (bytes : ByteArray) : Option Text := (String.fromUTF8? bytes).map String.toList

def byteLength (t : Text) : Nat := (toBytes t).size

theorem ofBytes?_toBytes (t : Text) : ofBytes? (toBytes t) = some t := by
  have h : String.fromUTF8? (toBytes t) = some (String.ofList t) :=
    dif_pos (String.ofList t).isValidUTF8
  simp [ofBytes?, h]

end MarkdownPage.Text

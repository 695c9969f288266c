import CommitGate.Text.Utf8

/-!
# Raw texts

Names of files, targets of links, spellings of paths and values of the environment are octets. Most
of them are the octets of a text, and one that is not still names its file: it cannot be read as a
text, and is shown with U+FFFD where it is malformed.

Results:

* `ofWide_wide`: octets are the same again after they were taken for characters.
-/

namespace CommitGate

open Text (Octets)

/-- A text as the operating system keeps it. -/
@[ext]
structure RawText where
  octets : Octets
deriving DecidableEq, Repr, Inhabited

namespace RawText

/-- A text as it is handed to the operating system. -/
def ofString (s : String) : RawText :=
  ⟨Text.encode s.toList⟩

instance : Coe String RawText := ⟨ofString⟩

/-- The text, when the octets are UTF-8. -/
def text? (r : RawText) : Option String :=
  (Text.decode? r.octets).map String.ofList

/-- The text as it is shown, whatever the octets are. -/
def shown (r : RawText) : String :=
  String.ofList (Text.decodeLossy r.octets)

/-- The text of a program that knows no characters: each of its characters is one octet. -/
def ofWide (s : String) : RawText :=
  ⟨Text.narrow s.toList⟩

/-- The text as such a program sees it. -/
def wide (r : RawText) : String :=
  String.ofList (Text.wide r.octets)

/-- By the first octet that differs, and a beginning before what it begins. -/
instance : LT RawText := ⟨fun a b => a.octets < b.octets⟩

instance : DecidableLT RawText := fun a b => inferInstanceAs (Decidable (a.octets < b.octets))

theorem ofWide_wide (r : RawText) : ofWide r.wide = r := by
  rw [ofWide, wide, String.toList_ofList, Text.narrow_wide]

end RawText

end CommitGate

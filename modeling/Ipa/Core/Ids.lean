import Ipa.Core.Basic
import Ipa.Lib.Text

/-!
# Keys of blobs

`originalKey`, `pageImageKey` and `thumbnailKey` write what a blob is (`BlobName`) as its key.  The
families differ in their first letters.  Within a family the key is read back: the text of an
identifier has 36 characters, a page number is read from its digits, and the length of the key of an
original determines the length of its digest.

* `BlobName.key_injective`: two blobs with one key are the same blob.
-/

namespace Ipa

theorem UUID.length_str (u : UUID) : u.str.toList.length = 36 := by
  simp [UUID.str, UUID.hex]

/-! ## The builders -/

/-- `original_key`: the key of an uploaded file. -/
def originalKey (sha256 : String) : String :=
  "originals/" ++ String.ofList (sha256.toList.take 2) ++ "/" ++ sha256

/-- `page_image_key`: the key of the image of a page. -/
def pageImageKey (documentId : UUID) (page : ℤ) : String :=
  "pages/" ++ documentId.str ++ "/" ++ Text.zeroPadded 5 page ++ ".png"

/-- `thumbnail_key`: the key of the thumbnail of a page. -/
def thumbnailKey (documentId : UUID) (page : ℤ) : String :=
  "thumbs/" ++ documentId.str ++ "/" ++ Text.zeroPadded 5 page ++ ".jpg"

/-- What a blob is: the original with a digest, or the image or the thumbnail of a page. -/
inductive BlobName
  | original (sha256 : String)
  | pageImage (documentId : UUID) (page : ℤ)
  | thumbnail (documentId : UUID) (page : ℤ)
deriving DecidableEq

/-- The key of a blob. -/
def BlobName.key : BlobName → String
  | original sha256 => originalKey sha256
  | pageImage documentId page => pageImageKey documentId page
  | thumbnail documentId page => thumbnailKey documentId page

/-! ## Reading a key -/

theorem originalKey_inj {sha256 sha256' : String} (h : originalKey sha256 = originalKey sha256') :
    sha256 = sha256' := by
  have hlist : ∀ sha : String, (originalKey sha).toList =
      "originals/".toList ++ (sha.toList.take 2 ++ '/' :: sha.toList) := by
    intro sha
    simp [originalKey]
  have hchars := congrArg String.toList h
  rw [hlist, hlist, List.append_cancel_left_eq] at hchars
  exact String.toList_inj.1 (Text.take_append_self_inj hchars)

/-- The key of a page determines the document and the page, whatever stands around them. -/
theorem pageKey_inj {folder suffix : String} {d d' : UUID} {page page' : ℤ}
    (h : folder ++ d.str ++ "/" ++ Text.zeroPadded 5 page ++ suffix =
      folder ++ d'.str ++ "/" ++ Text.zeroPadded 5 page' ++ suffix) : d = d' ∧ page = page' := by
  have hchars := congrArg String.toList h
  simp only [String.toList_append, List.append_assoc, List.append_cancel_left_eq] at hchars
  have hlength : d.str.toList.length = d'.str.toList.length := by
    rw [UUID.length_str, UUID.length_str]
  obtain ⟨hid, hrest⟩ := List.append_inj hchars hlength
  rw [List.append_cancel_left_eq, List.append_cancel_right_eq] at hrest
  exact ⟨UUID.str_injective (String.toList_inj.1 hid), Text.zeroPadded_inj (String.toList_inj.1 hrest)⟩

/-- The first letter of a key is that of its family. -/
theorem BlobName.head_key (name : BlobName) : name.key.toList.head? = some (match name with
    | original _ => 'o'
    | pageImage _ _ => 'p'
    | thumbnail _ _ => 't') := by
  cases name <;> simp [key, originalKey, pageImageKey, thumbnailKey]

theorem BlobName.key_injective : Function.Injective BlobName.key := by
  intro name name' h
  have hhead := name.head_key.symm.trans ((congrArg (·.toList.head?) h).trans name'.head_key)
  cases name <;> cases name' <;> simp only [Option.some.injEq, Char.reduceEq] at hhead
  case original.original sha256 sha256' => exact congrArg original (originalKey_inj h)
  case pageImage.pageImage d page d' page' =>
    obtain ⟨rfl, rfl⟩ := pageKey_inj h
    rfl
  case thumbnail.thumbnail d page d' page' =>
    obtain ⟨rfl, rfl⟩ := pageKey_inj h
    rfl

end Ipa

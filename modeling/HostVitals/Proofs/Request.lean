import HostVitals.Request
import Mathlib.Data.List.Basic

/-! Every page has a path that leads to it. A metric may have any key but the empty one: what a
segment of a path cannot show as it is, is written as bytes in hexadecimal digits. -/
namespace HostVitals

namespace Request

def isPlain (b : UInt8) : Bool :=
  let c := Char.ofNat b.toNat
  b.toNat < 128 && (c.isAlphanum || c == '-' || c == '.' || c == '_' || c == '~')

def hexDigit (n : Nat) : Char := Char.ofNat (if n < 10 then 48 + n else 55 + n)

def encodeByte (b : UInt8) : List Char :=
  if isPlain b then [Char.ofNat b.toNat]
  else ['%', hexDigit (b.toNat / 16), hexDigit (b.toNat % 16)]

def encodeKey (key : String) : String :=
  String.ofList (key.toByteArray.data.toList.flatMap encodeByte)

theorem plain_spec {b : UInt8} (h : isPlain b = true) :
    Char.ofNat b.toNat ≠ '%' ∧ Char.ofNat b.toNat ≠ '/' ∧
      String.utf8EncodeChar (Char.ofNat b.toNat) = [b] := by
  have hall : ∀ n < 256, isPlain (UInt8.ofNat n) = true → Char.ofNat n ≠ '%' ∧
      Char.ofNat n ≠ '/' ∧ String.utf8EncodeChar (Char.ofNat n) = [UInt8.ofNat n] := by
    decide +kernel
  have hb := hall b.toNat b.toNat_lt
  rw [UInt8.ofNat_toNat] at hb
  exact hb h

theorem hexDigit_spec {n : Nat} (h : n < 16) :
    hexDigit n ≠ '/' ∧ Text.digitValue 16 (hexDigit n) = some n := by
  have hall : ∀ n < 16, hexDigit n ≠ '/' ∧ Text.digitValue 16 (hexDigit n) = some n := by
    decide +kernel
  exact hall n h

theorem percentDecode_cons {c : Char} (h : c ≠ '%') (r : List Char) :
    percentDecode (c :: r) = String.utf8EncodeChar c ++ percentDecode r := by
  rw [percentDecode.eq_def]
  split
  · next heq => exact absurd (List.cons.inj heq).1 h
  · next heq =>
    obtain ⟨rfl, rfl⟩ := List.cons.inj heq
    rfl
  · next heq => cases heq

theorem percentDecode_encodeByte (b : UInt8) (r : List Char) :
    percentDecode (encodeByte b ++ r) = b :: percentDecode r := by
  unfold encodeByte
  split
  · next hplain =>
    obtain ⟨hsign, -, hbyte⟩ := plain_spec hplain
    rw [List.singleton_append, percentDecode_cons hsign, hbyte]
    rfl
  · have hb := b.toNat_lt
    have hhigh := (hexDigit_spec (n := b.toNat / 16) (by omega)).2
    have hlow := (hexDigit_spec (n := b.toNat % 16) (Nat.mod_lt _ (by decide))).2
    simp only [List.cons_append, List.nil_append, percentDecode, hhigh, hlow, Nat.div_add_mod,
      UInt8.ofNat_toNat]

theorem percentDecode_flatMap (bytes : List UInt8) :
    percentDecode (bytes.flatMap encodeByte) = bytes := by
  induction bytes with
  | nil => rfl
  | cons b rest ih => rw [List.flatMap_cons, percentDecode_encodeByte, ih]

theorem decodeKey_encodeKey (key : String) : decodeKey (encodeKey key) = some key := by
  rw [decodeKey, encodeKey, String.toList_ofList, percentDecode_flatMap]
  exact dif_pos key.isValidUTF8

theorem slash_not_mem_encodeKey (key : String) : '/' ∉ (encodeKey key).toList := by
  rw [encodeKey, String.toList_ofList, List.mem_flatMap]
  rintro ⟨b, -, hmem⟩
  unfold encodeByte at hmem
  split at hmem
  · next hplain => exact (plain_spec hplain).2.1 (List.mem_singleton.mp hmem).symm
  · have hb := b.toNat_lt
    have hhigh := (hexDigit_spec (n := b.toNat / 16) (by omega)).1
    have hlow := (hexDigit_spec (n := b.toNat % 16) (Nat.mod_lt _ (by decide))).1
    simp [hhigh.symm, hlow.symm] at hmem

theorem encodeKey_ne_empty {key : String} (h : key ≠ "") : encodeKey key ≠ "" := by
  intro hempty
  have hdecode := decodeKey_encodeKey key
  rw [hempty] at hdecode
  exact h (Option.some.inj (hdecode.symm.trans (decodeKey_encodeKey "")))

end Request

def Page.path : Page → String
  | .root => "/"
  | .metrics => "/metrics"
  | .metric key => "/metrics/" ++ Request.encodeKey key
  | .health => "/health"
  | .config => "/config"
  | .telemetry => "/telemetry"

namespace Request

theorem ofPath?_metric (segment : String) :
    Page.ofPath? ("/metrics/" ++ segment) = some (.metric segment) := by
  have hne (path : String) (h : ('/' :: "metrics/".toList).isPrefixOf path.toList = false) :
      "/metrics/" ++ segment ≠ path := by
    rintro rfl
    simp at h
  unfold Page.ofPath?
  split
  · next heq => exact absurd heq (hne _ rfl)
  · next heq => exact absurd heq (hne _ rfl)
  · next heq => exact absurd heq (hne _ rfl)
  · next heq => exact absurd heq (hne _ rfl)
  · next heq => exact absurd heq (hne _ rfl)
  · have hstrip : Text.stripStart "/metrics/".toList ("/metrics/".toList ++ segment.toList) =
        some segment.toList := rfl
    rw [String.toList_append, hstrip, Option.map_some, String.ofList_toList]

/-- The path of a page leads to it; only the empty key has none. -/
theorem target_path {page : Page} (h : page ≠ .metric "") : target page.path = .page page := by
  cases page with
  | metric key =>
    have hkey : key ≠ "" := fun he => h (he ▸ rfl)
    unfold target Page.path
    rw [ofPath?_metric]
    simp [encodeKey_ne_empty hkey, slash_not_mem_encodeKey, decodeKey_encodeKey]
  | _ => rfl

theorem target_path_of_empty : target (Page.metric "").path = .nowhere := by decide +kernel

end Request
end HostVitals

import OrderBookServer.Records

/-!
# UTF-8 and separators

A byte below 128 only ever stands for itself, so a text that is cut at such a byte is cut
between characters: the pieces are texts exactly when the whole is.
-/
namespace OrderBookServer.Utf8

/-- The bytes of some characters. -/
def encode (cs : List Char) : List UInt8 := cs.flatMap String.utf8EncodeChar

/-- The bytes of a text. -/
def Valid (bytes : List UInt8) : Prop := ∃ cs, bytes = encode cs

@[simp] theorem encode_nil : encode [] = [] := rfl

@[simp] theorem encode_append (cs ds : List Char) : encode (cs ++ ds) = encode cs ++ encode ds :=
  List.flatMap_append

theorem valid_nil : Valid [] := ⟨[], rfl⟩

theorem Valid.append {as bs : List UInt8} (ha : Valid as) (hb : Valid bs) : Valid (as ++ bs) := by
  obtain ⟨cs, rfl⟩ := ha
  obtain ⟨ds, rfl⟩ := hb
  exact ⟨cs ++ ds, (encode_append cs ds).symm⟩

/-- The bytes of a string. -/
def bytes (text : String) : List UInt8 := text.toByteArray.data.toList

/-- The string with these bytes, if they are those of a text. -/
def decode (bytes : List UInt8) : Option String := String.fromUTF8? bytes.toByteArray

theorem bytes_eq_encode (text : String) : bytes text = encode text.toList := by
  have h : text.toByteArray = text.toList.utf8Encode := by
    rw [← String.toByteArray_ofList, String.ofList_toList]
  rw [bytes, h, List.utf8Encode, List.data_toByteArray, encode]

theorem bytes_injective : Function.Injective bytes := by
  intro s t h
  apply String.toByteArray_inj.mp
  apply ByteArray.ext
  exact Array.toList_inj.mp h

theorem encode_injective : Function.Injective encode := by
  intro cs ds h
  have hbytes : bytes (String.ofList cs) = bytes (String.ofList ds) := by
    rw [bytes_eq_encode, bytes_eq_encode, String.toList_ofList, String.toList_ofList, h]
  have hlist := congrArg String.toList (bytes_injective hbytes)
  rwa [String.toList_ofList, String.toList_ofList] at hlist

theorem decode_eq_some {as : List UInt8} {text : String} :
    decode as = some text ↔ as = bytes text := by
  have hdata : as = bytes text ↔ as.toByteArray = text.toByteArray := by
    constructor
    · rintro rfl
      apply ByteArray.ext
      rw [List.data_toByteArray, bytes, Array.toArray_toList]
    · intro h
      rw [bytes, ← h, List.data_toByteArray]
  rw [hdata, decode, String.fromUTF8?]
  split_ifs with hvalid
  · rw [Option.some.injEq, ← String.toByteArray_inj]
    rfl
  · exact iff_of_false (fun h => by cases h) fun h => hvalid (h ▸ text.isValidUTF8)

theorem isSome_decode {as : List UInt8} : (decode as).isSome = true ↔ Valid as := by
  rw [Option.isSome_iff_exists]
  constructor
  · rintro ⟨text, h⟩
    exact ⟨text.toList, (decode_eq_some.mp h).trans (bytes_eq_encode text)⟩
  · rintro ⟨cs, rfl⟩
    exact ⟨String.ofList cs, decode_eq_some.mpr (by rw [bytes_eq_encode, String.toList_ofList])⟩

/-- A character is its own byte below 128, or all its bytes are at least 128. -/
theorem utf8EncodeChar_cases (c : Char) :
    (∃ b < 128, String.utf8EncodeChar c = [b] ∧ b.toNat = c.toNat) ∨
    ∀ b ∈ String.utf8EncodeChar c, ¬ b < 128 := by
  have hhigh (k : ℕ) (hk : k < 128) : ¬ UInt8.ofNat (k + 128) < 128 := by
    rw [UInt8.lt_iff_toNat_lt, UInt8.toNat_ofNat_of_lt' (by show k + 128 < 256; omega)]
    show ¬ k + 128 < 128
    omega
  unfold String.utf8EncodeChar
  dsimp only
  split_ifs with h1 h2 h3
  · have hword : (UInt8.ofNat c.val.toNat).toNat = c.val.toNat :=
      UInt8.toNat_ofNat_of_lt' (by show c.val.toNat < 256; omega)
    refine .inl ⟨_, ?_, rfl, hword⟩
    rw [UInt8.lt_iff_toNat_lt, hword]
    show c.val.toNat < 128
    omega
  all_goals
    refine .inr fun b hb => ?_
    simp only [List.mem_cons, List.not_mem_nil, or_false] at hb
  · obtain rfl | rfl := hb
    · exact hhigh (c.val.toNat / 64 % 32 + 64) (by omega)
    · exact hhigh (c.val.toNat % 64) (by omega)
  · obtain rfl | rfl | rfl := hb
    · exact hhigh (c.val.toNat / 4096 % 16 + 96) (by omega)
    · exact hhigh (c.val.toNat / 64 % 64) (by omega)
    · exact hhigh (c.val.toNat % 64) (by omega)
  · obtain rfl | rfl | rfl | rfl := hb
    · exact hhigh (c.val.toNat / 262144 % 8 + 112) (by omega)
    · exact hhigh (c.val.toNat / 4096 % 64) (by omega)
    · exact hhigh (c.val.toNat / 64 % 64) (by omega)
    · exact hhigh (c.val.toNat % 64) (by omega)

/-- A byte below 128 of a text is a character of it. -/
theorem encode_eq_append {cs : List Char} {as bs : List UInt8} {b : UInt8} (hb : b < 128)
    (h : encode cs = as ++ b :: bs) : Valid (as ++ [b]) ∧ Valid bs := by
  induction cs generalizing as with
  | nil => simp at h
  | cons c cs ih =>
    have hcons : encode (c :: cs) = String.utf8EncodeChar c ++ encode cs := List.flatMap_cons
    have hc : Valid (String.utf8EncodeChar c) := ⟨[c], by simp [encode]⟩
    rw [hcons] at h
    obtain ⟨as', rfl, hrest⟩ | ⟨more, hmore, hrest⟩ := List.append_eq_append_iff.mp h
    · obtain ⟨ha, hbs⟩ := ih hrest
      rw [List.append_assoc]
      exact ⟨hc.append ha, hbs⟩
    · cases more with
      | nil =>
        have hnil : encode cs = [] ++ b :: bs := hrest.symm
        obtain ⟨ha, hbs⟩ := ih hnil
        rw [List.append_nil] at hmore
        rw [← hmore]
        exact ⟨hc.append ha, hbs⟩
      | cons b' more =>
        obtain ⟨rfl, rfl⟩ := List.cons.inj hrest
        obtain ⟨a, ha, hsingle, -⟩ | hall := utf8EncodeChar_cases c
        · rw [hsingle] at hmore
          obtain rfl : as = [] := by
            have hlength := congrArg List.length hmore
            simp only [List.length_append, List.length_cons, List.length_nil] at hlength
            exact List.length_eq_zero_iff.mp (by omega)
          obtain ⟨rfl, rfl⟩ := List.cons.inj hmore
          exact ⟨hsingle ▸ hc, cs, rfl⟩
        · exact absurd hb (hall b (by simp [hmore]))

/-- The last byte of a text is below 128 where its last character is that byte. -/
theorem getLast?_of_encode {cs : List Char} {as : List UInt8} {b : UInt8} {c : Char} (hb : b < 128)
    (hc : b.toNat = c.toNat) (h : encode cs = as ++ [b]) : cs.getLast? = some c := by
  cases cs using List.reverseRecOn with
  | nil => simp at h
  | append_singleton cs d =>
    have hlast : (encode (cs ++ [d])).getLast? = (String.utf8EncodeChar d).getLast? := by
      have hd : encode [d] = String.utf8EncodeChar d := by simp [encode]
      rw [encode_append, hd, List.getLast?_append_of_ne_nil _ String.utf8EncodeChar_ne_nil]
    rw [h, List.getLast?_concat] at hlast
    obtain ⟨a, -, hsingle, hd⟩ | hall := utf8EncodeChar_cases d
    · rw [hsingle, List.getLast?_singleton, Option.some.injEq] at hlast
      rw [List.getLast?_concat, Option.some.injEq]
      apply Char.toNat_inj.mp
      rw [← hd, ← hlast, hc]
    · exact absurd hb (hall b (List.mem_of_getLast? hlast.symm))

/-- A text is made of texts that end at a byte below 128. -/
theorem valid_append_iff {as bs : List UInt8} {b : UInt8} (hb : b < 128) :
    Valid (as ++ b :: bs) ↔ Valid (as ++ [b]) ∧ Valid bs := by
  constructor
  · rintro ⟨cs, h⟩
    exact encode_eq_append hb h.symm
  · rintro ⟨ha, hbs⟩
    have := ha.append hbs
    simpa using this

theorem valid_flatten_iff {sep : UInt8} (hsep : sep < 128) {rs : List (List UInt8)}
    (h : ∀ r ∈ rs, Records.Whole sep r) : Valid rs.flatten ↔ ∀ r ∈ rs, Valid r := by
  induction rs with
  | nil => simp [valid_nil]
  | cons r rs ih =>
    rw [List.forall_mem_cons] at h
    obtain ⟨⟨body, rfl, -⟩, hrs⟩ := h
    rw [List.flatten_cons, List.append_assoc, List.singleton_append, valid_append_iff hsep, ih hrs,
      List.forall_mem_cons]

end OrderBookServer.Utf8

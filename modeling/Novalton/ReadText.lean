/-
`ReadFileExecutor` of `modules/tools/executor.py` on files of text: what is returned of a
file when the limit falls between its characters, and when it falls inside one.
-/
import Novalton.WorkspaceFiles

namespace Novalton.WorkspaceFiles

/-! ## Prefixes of encoded text -/

theorem encode_append (t u : Text) : encode (t ++ u) = encode t ++ encode u := List.flatMap_append

theorem decode_cons (c : Char) (raw : Bytes) : decode
    (String.utf8EncodeChar c ++ raw) = (decode raw).map (c :: ·) := by
  have hbytes : (String.utf8EncodeChar c ++ raw).toByteArray = [c].utf8Encode ++
      raw.toByteArray := by
    rw [List.toByteArray_append, List.utf8Encode_singleton]
  rw [decode, hbytes, ByteArray.utf8Decode?_utf8Encode_singleton_append, decode, Option.map_map,
    Option.map_map]
  refine congrArg (fun f => Option.map f _) (funext fun chars => ?_)
  simp

theorem decode_append (t : Text) (raw : Bytes) : decode (encode t ++ raw) = (decode raw).map
    (t ++ ·) := by
  induction t with
  | nil =>
    show decode raw = _
    simp
  | cons c t ih =>
    have hcons : encode (c :: t) ++ raw = String.utf8EncodeChar c ++ (encode t ++ raw) := by
      rw [encode, List.flatMap_cons, List.append_assoc]
      rfl
    rw [hcons, decode_cons, ih, Option.map_map]
    rfl

theorem encode_of_decode {raw : Bytes} {text : Text} (h : decode raw = .some text) :
    encode text = raw := by
  rw [decode, Option.map_eq_some_iff] at h
  obtain ⟨chars, hchars, rfl⟩ := h
  have hsome : raw.toByteArray.utf8Decode?.isSome := by rw [hchars]; rfl
  have hget : raw.toByteArray.utf8Decode?.get hsome = chars := Option.get_of_eq_some hsome hchars
  have hbytes := @ByteArray.utf8Encode_get_utf8Decode? raw.toByteArray hsome
  rw [hget] at hbytes
  have hlist := congrArg (fun bytes : ByteArray => bytes.data.toList) hbytes
  simp only [List.utf8Encode, List.toList_data_toByteArray] at hlist
  exact hlist

/-- The first bytes of a text are a text exactly if they end between two of its characters. -/
theorem decode_take {text kept : Text} {limit : ℕ} :
    decode ((encode text).take limit) = .some kept ↔ kept <+: text ∧
      (encode kept).length = min limit (encode text).length := by
  constructor
  · intro h
    have hencoded := encode_of_decode h
    have hwhole := decode_append kept ((encode text).drop limit)
    rw [hencoded, List.take_append_drop, decode_encode] at hwhole
    obtain ⟨rest, -, hrest⟩ := Option.map_eq_some_iff.mp hwhole.symm
    exact ⟨⟨rest, hrest⟩, by rw [hencoded, List.length_take]⟩
  · rintro ⟨⟨rest, rfl⟩, hlength⟩
    rw [encode_append] at hlength ⊢
    have htake : (encode kept ++ encode rest).take limit = encode kept := by
      rcases Nat.le_total limit (encode kept ++ encode rest).length with hle | hle
      · rw [Nat.min_eq_left hle] at hlength
        rw [← hlength, List.take_left]
      · rw [Nat.min_eq_right hle, List.length_append] at hlength
        have hrest : encode rest = [] := List.length_eq_zero_iff.mp (by omega)
        rw [List.take_of_length_le hle, hrest, List.append_nil]
    rw [htake, decode_encode]

/-! ## Reads -/

variable {lib : Library} {fs : FileSystem} {links : ℕ} {root : WorkspaceRoot}
  {data : WorkspaceReadFileInput} {path : List Text}

/-- What is read of a file that holds `text`: the longest prefix of it within the limit, with its
length, and truncated if the file is longer. -/
structure ReadsPrefix (data : WorkspaceReadFileInput) (text : Text) (evidence : ReadFileEvidence) :
    Prop where
  kept : evidence.text <+: text
  fits : (encode evidence.text).length ≤ data.max_bytes
  longest : ∀ next, evidence.text ++ [next] <+: text →
    data.max_bytes < (encode (evidence.text ++ [next])).length
  counted : evidence.bytes_returned = (encode evidence.text).length
  truncated : evidence.truncated = true ↔ data.max_bytes < (encode text).length

theorem execute_text {text : Text} (hpath : root.resolve lib fs links data.path false = .ok path)
    (hcontent : fs.read_bytes links path = .some (encode text)) (hnul : (0 : UInt8) ∉ encode text) :
    ReadFileExecutor.execute lib fs links root data =
      match decode ((encode text).take data.max_bytes) with
      | .some kept =>
        .ok (⟨root.relative path, kept, ((encode text).take data.max_bytes).length,
          decide (data.max_bytes < (encode text).length)⟩,
            ⟨root.relative path, ((encode text).take data.max_bytes).length,
            lib.sha256 ((encode text).take data.max_bytes),
            decide (data.max_bytes < (encode text).length)⟩)
      | .none => .error (.tool "non_utf8_file_denied") := by
  have htake : ((encode text).take (data.max_bytes + 1)).take data.max_bytes =
      (encode text).take data.max_bytes := by
    rw [List.take_take, Nat.min_eq_left (Nat.le_succ _)]
  have hlonger : decide (data.max_bytes < ((encode text).take (data.max_bytes + 1)).length) =
      decide (data.max_bytes < (encode text).length) := by
    rw [List.length_take, decide_eq_decide]
    omega
  have hclean : ((encode text).take data.max_bytes).contains 0 = false := by
    rw [List.contains_eq_mem, decide_eq_false_iff_not]
    exact fun hmem => hnul (List.mem_of_mem_take hmem)
  rw [ReadFileExecutor.execute, hpath, Py.ok_bind, hcontent, orRaise_some, Py.ok_bind]
  simp only [htake, hlonger, hclean, raiseIf_false, Py.ok_bind]
  cases decode ((encode text).take data.max_bytes) with
  | none => rfl
  | some kept => rfl

/-- **A visible text file is read, with a prefix that loses at most the character that the limit
cuts, exactly if the limit cuts none**: it is the file's length at least, or that of a prefix
of its text. -/
theorem read_prefix_iff {text : Text} (hpath : root.resolve lib fs links data.path false = .ok path)
    (hcontent : fs.read_bytes links path = .some (encode text)) (hnul : (0 : UInt8) ∉ encode text) :
    (∃ evidence metadata, ReadFileExecutor.execute lib fs links root data =
      .ok (evidence, metadata) ∧ ReadsPrefix data text evidence) ↔
      (encode text).length ≤ data.max_bytes ∨ ∃ kept, kept <+: text ∧
      (encode kept).length = data.max_bytes := by
  rw [execute_text hpath hcontent hnul]
  constructor
  · rintro ⟨evidence, metadata, hexecute, -⟩
    cases hdecode : decode ((encode text).take data.max_bytes) with
    | none =>
      rw [hdecode] at hexecute
      cases hexecute
    | some kept =>
      obtain ⟨hkept, hlength⟩ := decode_take.mp hdecode
      rcases Nat.le_total (encode text).length data.max_bytes with hle | hle
      · exact .inl hle
      · exact .inr ⟨kept, hkept, hlength.trans (Nat.min_eq_left hle)⟩
  · intro hboundary
    have hkept : ∃ kept, kept <+: text ∧
        (encode kept).length = min data.max_bytes (encode text).length := by
      rcases hboundary with hle | ⟨kept, hkept, hlength⟩
      · exact ⟨text, List.prefix_rfl, (Nat.min_eq_right hle).symm⟩
      · obtain ⟨rest, rfl⟩ := hkept
        refine ⟨kept, List.prefix_append kept rest, ?_⟩
        rw [encode_append, List.length_append]
        omega
    obtain ⟨kept, hkept, hlength⟩ := hkept
    rw [decode_take.mpr ⟨hkept, hlength⟩]
    refine ⟨_, _, rfl, ?_⟩
    exact
      { kept := hkept
        fits := by
          rw [hlength]
          exact Nat.min_le_left _ _
        longest := fun next hnext => by
          -- one more character of the text would have fitted
          obtain ⟨rest, hrest⟩ := hnext
          have hwidth := String.length_utf8EncodeChar next
          have hpos := next.utf8Size_pos
          have hmore : (encode text).length = (encode kept).length + next.utf8Size +
              (encode rest).length := by
            rw [← hrest, encode_append, encode_append, List.length_append, List.length_append,
              ← hwidth]
            simp [encode]
          rw [encode_append, List.length_append]
          have hone : (encode [next]).length = next.utf8Size := by
            rw [← hwidth]
            simp [encode]
          show data.max_bytes < (encode kept).length + (encode [next]).length
          omega
        counted := by
          rw [List.length_take]
          exact hlength.symm
        truncated := decide_eq_true_iff }

/-- Three letters, and one that takes two bytes. -/
def accented : Text := ['a', 'a', 'a', 'é']

/-- `/w` with a file of this text. -/
def accentedFiles : FileSystem where
  nodes := [([['w']], .directory true), ([['w'], ['a']], .file true (encode accented))]
  distinct := by decide
  named := by decide
  parents := by decide

def accentedRead (max_bytes : ℕ) (h : 1 ≤ max_bytes ∧ max_bytes ≤ 65536) :
    WorkspaceReadFileInput where
  path := ['a']
  max_bytes := max_bytes
  path_length := ⟨Nat.le_refl 1, Nat.le_of_ble_eq_true rfl⟩
  path_accepted := rfl
  bytes_bounds := h

theorem accented_resolved : WorkspaceRoot.resolve lowerLibrary accentedFiles 40 ⟨[['w']]⟩
    ['a'] false = .ok [['w'], ['a']] ∧
    accentedFiles.read_bytes 40 [['w'], ['a']] = .some (encode accented) ∧
      (0 : UInt8) ∉ encode accented := by
  decide +kernel

theorem accented_whole :
    (∃ evidence metadata, ReadFileExecutor.execute lowerLibrary accentedFiles 40 ⟨[['w']]⟩
      (accentedRead 5 (by decide)) =
        .ok (evidence, metadata) ∧ ReadsPrefix (accentedRead 5 (by decide)) accented evidence) ↔
      (encode accented).length ≤ 5 ∨ ∃ kept, kept <+: accented ∧ (encode kept).length = 5 :=
  @read_prefix_iff lowerLibrary accentedFiles 40 ⟨[['w']]⟩ (accentedRead 5 (by decide)) [['w'],
    ['a']] accented
    accented_resolved.1 accented_resolved.2.1 accented_resolved.2.2

/-- Four bytes of the five end inside the last letter, and the file is refused. -/
theorem accented_refused :
    WorkspaceRoot.resolve lowerLibrary accentedFiles 40 ⟨[['w']]⟩ ['a'] false = .ok [['w'], ['a']] ∧
      accentedFiles.read_bytes 40 [['w'], ['a']] = .some (encode accented) ∧
        (0 : UInt8) ∉ encode accented ∧
      ReadFileExecutor.execute lowerLibrary accentedFiles 40 ⟨[['w']]⟩
        (accentedRead 4 (by decide)) =
        .error (.tool "non_utf8_file_denied") := by
  obtain ⟨hpath, hcontent, hnul⟩ := accented_resolved
  have hprefixes : ∀ kept ∈ accented.inits,
    (encode kept).length ≠ min 4 (encode accented).length := by decide
  have hcut : decode ((encode accented).take 4) = .none := by
    cases hdecode : decode ((encode accented).take 4) with
    | none => rfl
    | some kept =>
      obtain ⟨hkept, hlength⟩ := decode_take.mp hdecode
      exact absurd hlength (hprefixes kept ((List.mem_inits _ _).mpr hkept))
  have hexecute := @execute_text lowerLibrary accentedFiles 40 ⟨[['w']]⟩
    (accentedRead 4 (by decide)) [['w'], ['a']] accented
    hpath hcontent hnul
  have hlimit : (accentedRead 4 (by decide)).max_bytes = 4 := rfl
  rw [hlimit, hcut] at hexecute
  exact ⟨hpath, hcontent, hnul, hexecute⟩

end Novalton.WorkspaceFiles

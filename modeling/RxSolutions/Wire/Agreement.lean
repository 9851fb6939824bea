import RxSolutions.Durable.Checks
import RxSolutions.Wire.Scanners
import Mathlib.Tactic.Ring

/-!
# The wire checkers agree

The two checkers walk over the same positions with the same budget, and what they have seen of a
message is the same up to how a oneof is identified. So the Rust checker accepts a text exactly
if the C++ one does and all the strings in it are UTF-8.
-/

namespace RxSolutions.Wire

open Durable Durable.Cursor

variable {ι : Type} {kind : Kind ι} {bytes : Bytes} {pos : ℕ}

/-! ## Readers -/

theorem varintFrom_eq_ok_iff {ε ε' : Type} (truncated overflow : ε) (truncated' overflow' : ε')
    (shifts : List UInt64) (value : UInt64) (pos : ℕ)
    (r : UInt64 × Reach bytes.length (pos + 1)) :
    varintFrom truncated overflow bytes shifts value pos = .ok r ↔
      varintFrom truncated' overflow' bytes shifts value pos = .ok r := by
  induction shifts generalizing value pos with
  | nil => simp [varintFrom]
  | cons shift shifts ih =>
    unfold varintFrom
    by_cases hpos : pos < bytes.length
    · rw [dif_pos hpos, dif_pos hpos]
      dsimp only
      split_ifs
      · simp
      · rw [Except.ok.injEq, Except.ok.injEq]
      · rw [Checks.bind_eq_ok, Checks.bind_eq_ok]
        refine exists_congr fun a => and_congr (ih _ _ a) ?_
        rw [Except.ok.injEq, Except.ok.injEq]
    · rw [dif_neg hpos, dif_neg hpos]
      simp

/-- Both read the same varint. -/
theorem varint_agree : Agree ValidUtf8 Eq (Cpp.varint bytes pos : Cpp.Scan _)
    (Rust.varint bytes pos) :=
  Agree.same fun r => varintFrom_eq_ok_iff _ _ _ _ _ _ _ r

/-- Neither the subtraction nor the addition of the lengths can go wrong. -/
theorem take_eq_ok_iff (hsize : bytes.length < 2 ^ 64) (h : pos ≤ bytes.length) (length : ℕ)
    (raw : {_raw : Bytes // pos + length ≤ bytes.length}) :
    Cpp.take bytes pos h length = .ok raw ↔ Rust.slice bytes pos length = .ok raw := by
  unfold Cpp.take Rust.slice
  by_cases hfits : pos + length ≤ bytes.length
  · rw [dif_neg (by omega), if_neg (by omega), dif_pos hfits]
    simp
  · exact absurd raw.2 hfits

theorem lengthDelimited_eq_ok_iff (hsize : bytes.length < 2 ^ 64)
    (r : Bytes × Reach bytes.length (pos + 1)) :
    Cpp.lengthDelimited bytes pos = .ok r ↔ Rust.lengthSlice bytes pos = .ok r := by
  unfold Cpp.lengthDelimited Rust.lengthSlice
  rw [Checks.bind_eq_ok, Checks.bind_eq_ok]
  refine exists_congr fun a => and_congr (varintFrom_eq_ok_iff _ _ _ _ _ _ _ a) ?_
  rw [Checks.bind_eq_ok, Checks.bind_eq_ok]
  refine exists_congr fun raw => and_congr (take_eq_ok_iff hsize _ _ raw) ?_
  rw [Checks.pure_eq_ok, Checks.pure_eq_ok]

theorem lengthDelimited_length {raw : Bytes} {r : Reach bytes.length (pos + 1)}
    (h : Cpp.lengthDelimited bytes pos = .ok (raw, r)) : raw.length ≤ bytes.length := by
  unfold Cpp.lengthDelimited at h
  obtain ⟨a, -, h⟩ := Checks.bind_eq_ok.mp h
  obtain ⟨b, htake, h⟩ := Checks.bind_eq_ok.mp h
  cases h
  unfold Cpp.take at htake
  split_ifs at htake
  cases htake
  simp

/-- What is cut out is not longer than what it is cut from. -/
theorem lengthDelimited_agree (hsize : bytes.length < 2 ^ 64) :
    Agree ValidUtf8 (fun a b => a = b ∧ a.1.length < 2 ^ 64)
      (Cpp.lengthDelimited bytes pos : Cpp.Scan _) (Rust.lengthSlice bytes pos) := by
  refine Agree.lift ?_ ?_
  · rintro ⟨raw, r⟩ h
    have hlength := lengthDelimited_length h
    exact ⟨_, (lengthDelimited_eq_ok_iff hsize _).mp h, rfl,
      Nat.lt_of_le_of_lt hlength hsize⟩
  · intro e h
    cases hslice : Rust.lengthSlice bytes pos with
    | error e' => exact ⟨e', rfl⟩
    | ok a =>
      rw [(lengthDelimited_eq_ok_iff hsize a).mpr hslice] at h
      cases h

/-! ## Values -/

/-- Both have the same wire types. -/
theorem wireType_eq (kind : Kind ι) : Cpp.wireType kind = Rust.wireType kind := by
  cases kind <;> rfl

theorem checkVarint_agree (v : UInt64) :
    Agree ValidUtf8 Eq (Cpp.checkVarint kind v : Cpp.Scan _) (Rust.checkVarint kind v) := by
  apply Agree.same
  intro a
  cases kind with
  | enum e =>
    simp only [Cpp.checkVarint, Rust.checkVarint]
    split_ifs <;> simp_all
  | _ => simp only [Cpp.checkVarint, Rust.checkVarint] <;> split_ifs <;> simp

/-- Putting the bytes together by shifts gives the number they stand for. -/
theorem bits_eq (raw : Bytes) : Cpp.bits raw = LittleEndian.value raw := by
  have hfold : ∀ (rest : Bytes) (k n : ℕ), n < 2 ^ (8 * k) →
      (rest.zipIdx k).foldl (fun bits byte => bits ||| (byte.1.toNat <<< (8 * byte.2))) n =
        n + 2 ^ (8 * k) * LittleEndian.value rest := by
    intro rest
    induction rest with
    | nil =>
      intro k n _
      simp [LittleEndian.value]
    | cons b rest ih =>
      intro k n hn
      have hb := b.toNat_lt
      have hor : n ||| (b.toNat <<< (8 * k)) = n + 2 ^ (8 * k) * b.toNat := by
        rw [Nat.or_comm, ← Nat.shiftLeft_add_eq_or_of_lt hn, Nat.shiftLeft_eq, Nat.add_comm,
          Nat.mul_comm]
      have hpow : 2 ^ (8 * (k + 1)) = 2 ^ (8 * k) * 256 := by rw [Nat.mul_succ, Nat.pow_add]
      rw [List.zipIdx_cons, List.foldl_cons, hor, ih (k + 1) _ ?_, hpow, LittleEndian.value]
      · ring
      · calc n + 2 ^ (8 * k) * b.toNat < 2 ^ (8 * k) + 2 ^ (8 * k) * b.toNat := by omega
          _ = 2 ^ (8 * k) * (b.toNat + 1) := by ring
          _ ≤ 2 ^ (8 * (k + 1)) := by
            rw [hpow]
            exact Nat.mul_le_mul_left _ hb
  have hall := hfold raw 0 0 (by decide)
  simpa [Cpp.bits] using hall

theorem checkBits_agree (raw : Bytes) :
    Agree ValidUtf8 Eq (Cpp.checkBits kind raw : Cpp.Scan _) (Rust.checkBits kind raw) := by
  apply Agree.same
  intro a
  cases kind with
  | double | float =>
    simp only [Cpp.checkBits, Rust.checkBits, bits_eq]
    split_ifs <;> simp
  | _ => simp [Cpp.checkBits, Rust.checkBits]

/-- The one difference: a string is checked on one side and passed on at the other. -/
theorem note_agree (fullName : String) (raw : Bytes) :
    Agree ValidUtf8 (fun _ _ => True) (Cpp.note kind raw) (Rust.checkText fullName kind raw) := by
  cases kind with
  | string =>
    apply Agree.tell
    · intro hvalid
      exact ⟨(), if_neg (not_not.mpr hvalid)⟩
    · intro hinvalid
      exact ⟨_, if_pos hinvalid⟩
  | _ => exact Agree.pure trivial

/-- Both read the same value of a field. -/
theorem scalar_agree (hsize : bytes.length < 2 ^ 64) (h : pos ≤ bytes.length)
    (fullName : String) :
    Agree ValidUtf8 Eq (Cpp.scalar kind bytes pos h) (Rust.scalar fullName kind bytes pos) := by
  unfold Cpp.scalar Rust.scalar
  rw [← wireType_eq]
  cases Cpp.wireType kind with
  | varint =>
    refine Agree.bind varint_agree ?_
    rintro ⟨v, r⟩ _ rfl
    exact Agree.bind (checkVarint_agree v) fun _ _ _ => Agree.pure rfl
  | fixed64 =>
    refine Agree.bind (Agree.same (take_eq_ok_iff hsize h 8)) ?_
    rintro raw _ rfl
    exact Agree.bind (checkBits_agree raw.1) fun _ _ _ => Agree.pure rfl
  | fixed32 =>
    refine Agree.bind (Agree.same (take_eq_ok_iff hsize h 4)) ?_
    rintro raw _ rfl
    exact Agree.bind (checkBits_agree raw.1) fun _ _ _ => Agree.pure rfl
  | lengthDelimited =>
    refine Agree.bind (lengthDelimited_agree hsize) ?_
    rintro ⟨raw, r⟩ _ ⟨rfl, -⟩
    exact Agree.bind (note_agree fullName raw) fun _ _ _ => Agree.pure rfl

theorem packedValue_agree {packed : Bytes} (hsize : packed.length < 2 ^ 64) (fullName : String)
    (pos : ℕ) (h : pos < packed.length) (budget budget' : ℕ) (hbudget : budget = budget') :
    Agree ValidUtf8 (fun a b => a.1 = b.1 ∧ a.2 = b.2) (Cpp.packedValue kind packed pos h budget)
      (Rust.packedValue fullName kind packed pos h budget') := by
  subst hbudget
  refine Agree.ite Iff.rfl (fun _ => Agree.throw) fun _ => ?_
  refine Agree.bind (scalar_agree hsize _ fullName) ?_
  rintro r _ rfl
  exact Agree.pure ⟨rfl, rfl⟩

/-! ## Messages -/

variable {nested : ι → Bytes → ℕ → Cpp.Scan ℕ} {nested' : ι → Bytes → ℕ → Except Rust.Status ℕ}

/-- Both read the same values after a tag. -/
theorem value_agree
    (hnested : ∀ type raw budget, raw.length < 2 ^ 64 →
      Agree ValidUtf8 Eq (nested type raw budget) (nested' type raw budget))
    (hsize : bytes.length < 2 ^ 64) (h : pos ≤ bytes.length) (fullName : String) (repeated : Bool)
    (wire budget : ℕ) :
    Agree ValidUtf8 Eq (Cpp.value nested kind repeated wire bytes pos h budget)
      (Rust.value nested' fullName kind repeated wire bytes pos budget) := by
  have hscalar : Agree ValidUtf8 Eq
      (do let r ← Cpp.scalar kind bytes pos h; return (r, budget))
      (do let r ← Rust.scalar fullName kind bytes pos; return (r, budget)) := by
    refine Agree.bind (scalar_agree hsize h fullName) ?_
    rintro r _ rfl
    exact Agree.pure rfl
  unfold Cpp.value Rust.value
  refine Agree.ite (by rw [wireType_eq]) (fun _ => ?_) fun _ =>
    Agree.ite (by rw [wireType_eq]) (fun _ => Agree.throw) fun _ => ?_
  · refine Agree.bind (lengthDelimited_agree hsize) ?_
    rintro ⟨packed, r⟩ _ ⟨rfl, hpacked⟩
    refine Agree.bind (Agree.loop (packedValue_agree hpacked fullName) 0 budget budget rfl) ?_
    rintro left _ rfl
    exact Agree.pure rfl
  · cases kind with
    | message type =>
      refine Agree.bind (lengthDelimited_agree hsize) ?_
      rintro ⟨raw, r⟩ _ ⟨rfl, hraw⟩
      refine Agree.bind (hnested type raw budget hraw) ?_
      rintro left _ rfl
      exact Agree.pure rfl
    | _ => exact hscalar

namespace Descriptor

variable (desc : Descriptor ι)

/-- What identifies a oneof in the Rust checker. -/
def name (g : Fin desc.oneofs.length) : String := (desc.oneofs.get g).fullName

theorem name_injective : Function.Injective desc.name := by
  intro g g' h
  have hget : desc.oneofs.get g = desc.oneofs.get g' :=
    List.inj_on_of_nodup_map desc.named (List.get_mem _ g) (List.get_mem _ g') h
  exact (List.Nodup.get_inj_iff (desc.named.of_map _)).mp hget

variable {desc}

theorem fullName_mem {g : Fin desc.oneofs.length} {groups : List (Fin desc.oneofs.length)} :
    (desc.oneofs.get g).fullName ∈ groups.map desc.name ↔ g ∈ groups :=
  List.mem_map_of_injective desc.name_injective

theorem getField_eq_some {n : ℕ} {f : Field ι desc.oneofs.length} (h : desc.getField n = some f) :
    f.number = n ∧ n < 2 ^ 29 := by
  have hnumber : f.number = n := by simpa using List.find?_some h
  exact ⟨hnumber, hnumber ▸ desc.numbered f (List.mem_of_find?_eq_some h)⟩

end Descriptor

variable {desc : Descriptor ι}

/-- What the checkers have seen of a message is the same, up to how a oneof is identified. -/
structure Same (s : Cpp.State desc.oneofs.length) (t : Rust.State) : Prop where
  budget : s.budget = t.budget
  seen : s.seen = t.singular
  groups : s.groups.map desc.name = t.oneofs

theorem insertSeen_agree (field : Field ι desc.oneofs.length) (seen : List ℕ) :
    Agree ValidUtf8 Eq (Cpp.insertSeen field seen : Cpp.Scan _)
      (Rust.insertSingular field field.number seen) := by
  apply Agree.same
  intro a
  unfold Cpp.insertSeen Rust.insertSingular
  split_ifs <;> simp

theorem insertGroup_agree (field : Field ι desc.oneofs.length)
    (groups : List (Fin desc.oneofs.length)) :
    Agree ValidUtf8 (fun a b => a.map desc.name = b) (Cpp.insertGroup field groups : Cpp.Scan _)
      (Rust.insertOneof desc field (groups.map desc.name)) := by
  unfold Cpp.insertGroup Rust.insertOneof
  cases field.containingOneof with
  | none => exact Agree.pure rfl
  | some g =>
    dsimp only
    by_cases hg : g ∈ groups
    · rw [if_pos hg, if_pos (Descriptor.fullName_mem.mpr hg)]
      exact Agree.throw
    · rw [if_neg hg, if_neg (mt Descriptor.fullName_mem.mp hg)]
      exact Agree.pure rfl

/-- Both admit the same fields. -/
theorem enter_agree {field : Field ι desc.oneofs.length} {s : Cpp.State desc.oneofs.length}
    {t : Rust.State} {tag : ℕ} (htag : field.number = tag) (h : Same s t) :
    Agree ValidUtf8 Same (Cpp.enter field s) (Rust.enter desc field tag t) := by
  refine Agree.ite Iff.rfl (fun _ => Agree.throw) fun _ => ?_
  rw [← htag, ← h.seen, ← h.groups]
  refine Agree.bind (insertSeen_agree field s.seen) ?_
  rintro seen _ rfl
  refine Agree.bind (insertGroup_agree field s.groups) ?_
  rintro groups _ rfl
  exact Agree.pure ⟨h.budget, rfl, rfl⟩

/-- Both miss the same groups. -/
theorem missing_agree (groups : List (Fin desc.oneofs.length)) :
    Agree ValidUtf8 (fun _ _ => True) (Cpp.missing desc groups : Cpp.Scan _)
      (Rust.missing desc (groups.map desc.name)) := by
  have hiff : Cpp.missing desc groups = .ok () ↔
      Rust.missing desc (groups.map desc.name) = .ok () := by
    unfold Cpp.missing Rust.missing
    rw [Checks.forM_eq_ok, Checks.forM_eq_ok]
    simp only [List.mem_finRange, forall_const, ite_eq_right_iff, reduceCtorEq, imp_false]
    rw [List.forall_mem_iff_get]
    simp only [Descriptor.fullName_mem]
  exact (Agree.same fun _ => hiff).mono fun _ _ _ => trivial

/-- Both take a field in the same way. -/
theorem field_agree (desc : Descriptor ι)
    (hnested : ∀ type raw budget, raw.length < 2 ^ 64 →
      Agree ValidUtf8 Eq (nested type raw budget) (nested' type raw budget))
    (hsize : bytes.length < 2 ^ 64) (pos : ℕ) (h : pos < bytes.length)
    (s : Cpp.State desc.oneofs.length) (t : Rust.State) (hsame : Same s t) :
    Agree ValidUtf8 (fun a b => a.1 = b.1 ∧ Same a.2 b.2) (Cpp.field nested desc bytes pos h s)
      (Rust.field nested' desc bytes pos h t) := by
  refine Agree.ite (by rw [hsame.budget]) (fun _ => Agree.throw) fun _ => ?_
  refine Agree.bind varint_agree ?_
  rintro ⟨key, r⟩ _ rfl
  dsimp only
  generalize key >>> 3 = tag
  by_cases hinvalid : tag = 0 ∨ tag > 2147483647
  · rw [if_pos hinvalid]
    -- a number that is only too large for C++ is not the number of a field
    split_ifs with hlarge hzero
    · exact Agree.throw
    · exact Agree.throw
    · have hmax : 2147483647 < tag.toNat := UInt64.lt_iff_toNat_lt.mp (hinvalid.resolve_left hzero)
      cases hfield : desc.getField tag.toNat with
      | none => exact Agree.throw
      | some field =>
        obtain ⟨-, hlt⟩ := Descriptor.getField_eq_some hfield
        omega
  · rw [if_neg hinvalid]
    obtain ⟨hzero, hmax⟩ := not_or.mp hinvalid
    have hfits : ¬ tag > 4294967295 := by
      intro hlarge
      exact hmax (UInt64.lt_trans (by decide) hlarge)
    rw [if_neg hfits, if_neg hzero]
    cases hfield : desc.getField tag.toNat with
    | none => exact Agree.throw
    | some field =>
      obtain ⟨hnumber, -⟩ := Descriptor.getField_eq_some hfield
      refine Agree.bind (enter_agree hnumber ⟨by rw [hsame.budget], hsame.seen, hsame.groups⟩) ?_
      intro s' t' hentered
      rw [← hentered.budget]
      refine Agree.bind (value_agree hnested hsize r.le field.fullName field.repeated _ _) ?_
      rintro ⟨r', left⟩ _ rfl
      exact Agree.pure ⟨rfl, rfl, hentered.seen, hentered.groups⟩

/-- Both scan a message in the same way, down to its last level. -/
theorem scan_agree (schema : ι → Descriptor ι) (levels : ℕ) (desc : Descriptor ι) (bytes : Bytes)
    (budget : ℕ) (hsize : bytes.length < 2 ^ 64) :
    Agree ValidUtf8 Eq (Cpp.scan schema levels desc bytes budget)
      (Rust.scan schema levels desc bytes budget) := by
  induction levels generalizing desc bytes budget with
  | zero => exact Agree.throw
  | succ levels ih =>
    have hfield := field_agree desc (fun type raw budget => ih (schema type) raw budget) hsize
    refine Agree.bind (Agree.loop hfield 0 _ _ ⟨rfl, rfl, rfl⟩) ?_
    intro s t hsame
    rw [← hsame.groups, ← hsame.budget]
    exact Agree.bind (missing_agree s.groups) fun _ _ _ => Agree.pure rfl

theorem validate_agree (schema : ι → Descriptor ι) (desc : Descriptor ι) (bytes : Bytes) :
    Agree ValidUtf8 (fun _ _ => True) (Cpp.validate schema desc bytes)
      (Rust.validate schema desc bytes) := by
  refine Agree.ite Iff.rfl (fun _ => Agree.throw) fun hsize => ?_
  exact Agree.bind (scan_agree schema 64 desc bytes 65536 (by omega)) fun _ _ _ =>
    Agree.pure trivial

/-- For every message type and all bytes: the C++ checker accepts them and all the strings it came
across are UTF-8, exactly if the Rust checker accepts them. -/
theorem wire_checkers_agree (schema : ι → Descriptor ι) (desc : Descriptor ι) (bytes : Bytes) :
    (∃ strings, (Cpp.validate schema desc bytes).run = .ok ((), strings) ∧
      ∀ raw ∈ strings, ValidUtf8 raw) ↔ Rust.validate schema desc bytes = .ok () := by
  have hagree := validate_agree schema desc bytes
  cases hrust : Rust.validate schema desc bytes with
  | ok u =>
    rw [hrust] at hagree
    obtain ⟨_, strings, hrun, hvalid, -⟩ := hagree
    exact iff_of_true ⟨strings, hrun, hvalid⟩ rfl
  | error e =>
    rw [hrust] at hagree
    refine iff_of_false ?_ nofun
    intro haccepted
    obtain ⟨strings, hrun, hvalid⟩ := haccepted
    obtain ⟨raw, hraw, hinvalid⟩ := hagree () strings hrun
    exact hinvalid (hvalid raw hraw)

end RxSolutions.Wire

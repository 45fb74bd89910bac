import CsoLabs.Hashtable.FiniteMap
import CsoLabs.Hashtable.Room

namespace CsoLabs.Hashtable

open Foundation CInt

def crowd (keys : List CString) (key : CString) : ℕ :=
  keys.countP fun k ↦ hashcode k = hashcode key

structure Growth where
  table : Htable
  keys : List CString
  crowded : ℕ

/-- The slots are as many as the hash codes, and ten keys have the one of `key` already. -/
def Growth.Crowded (s : Growth) (key : CString) : Prop :=
  BIG_PRIME < s.table.size ∧ MAX_COLLISION ≤ crowd s.keys key

instance (s : Growth) (key : CString) : Decidable (s.Crowded key) :=
  inferInstanceAs (Decidable (_ ∧ _))

def Growth.crowdedWith (s : Growth) (key : CString) : ℕ :=
  s.crowded + if s.Crowded key then 1 else 0

inductive Grow : Growth → Growth → Prop
  | insert {s : Growth} {key : CString} {val : ℕ} {r : ℤ} {t : Htable} (hk : key.Ascii)
      (hnew : key ∉ s.keys) (h : htableInsert s.table key val = some (r, t)) :
      Grow s ⟨t, key :: s.keys, s.crowdedWith key⟩

abbrev Grows (t₀ : Htable) : Growth → Prop := Reachable (· = ⟨t₀, [], 0⟩) Grow

def ResizedBy (t : Htable) (key : CString) (t' : Htable) : Prop :=
  ∃ hcode slot val collision, hashcode key = some hcode ∧ slotOf t hcode = some slot ∧
    insertAt t slot hcode key val = some (some collision, t') ∧
    t'.allowResize ≠ 0 ∧ collision ≥ MAX_COLLISION

/-- If the insert of `key` resizes the table, the doubled size is an `int` and the table grows. -/
def GrowsWithinInt (t : Htable) (key : CString) : Prop :=
  ∀ t', ResizedBy t key t' →
    2 * t'.size ≤ 2147483647 ∧ ∃ size, newSize t' = some size ∧ t'.size < size

/-- The invariant of a run of inserts. Every crowded insert uses up some room. -/
structure GrowthOk (t₀ : Htable) (s : Growth) (chain : ℕ → List ℕ) (m : CString → Option ℕ) :
    Prop where
  ok : TableOk s.table chain m
  allow : s.table.allowResize = 1
  keys : ∀ k, k ∈ s.keys ↔ m k ≠ none
  ascii : ∀ k ∈ s.keys, k.Ascii
  nodup : s.keys.Nodup
  crowd_le : ∀ key, 2 ^ (crowd s.keys key - 10) ≤ s.table.size
  room_eq : s.crowded + room s.table.size = room t₀.size

variable {t t' t₀ : Htable} {s s' : Growth} {chain : ℕ → List ℕ} {m : CString → Option ℕ}
  {key k : CString} {keys : List CString} {hcode r sz : ℤ} {val : ℕ}

theorem crowd_cons : crowd (k :: keys) key =
    crowd keys key + if hashcode k = hashcode key then 1 else 0 := by
  simp [crowd, List.countP_cons]

theorem crowd_congr (h : hashcode k = hashcode key) : crowd keys k = crowd keys key := by
  simp only [crowd, h]

/-- The size doubles with every further key of a hash code that ten keys have. -/
theorem crowd_le_cons {size size' : ℤ} (h : 2 ^ (crowd keys k - 10) ≤ size) (hle : size ≤ size')
    (hdouble : hashcode k = hashcode key → 10 ≤ crowd keys k → 2 * size ≤ size') :
    2 ^ (crowd (key :: keys) k - 10) ≤ size' := by
  rw [crowd_cons]
  split_ifs with hkey
  · rcases lt_or_ge (crowd keys k) 10 with hfew | hmany
    · rw [Nat.sub_eq_zero_of_le (by omega)] at h ⊢
      exact h.trans hle
    · rw [Nat.sub_add_comm hmany, pow_succ]
      have := hdouble hkey.symm hmany
      omega
  · exact h.trans hle

def keysAt (nodes : ℕ → Option Node) (xs : List ℕ) : List CString :=
  xs.filterMap fun x ↦ (nodes x).map Node.key

theorem TableOk.length_keysAt (T : TableOk t chain m) (i : ℕ) :
    (keysAt t.nodes (chain i)).length = (chain i).length := by
  refine List.filterMap_length_eq_length.mpr fun x hx ↦ ?_
  obtain ⟨n, hn, -⟩ := T.placed i x hx
  rw [hn]
  rfl

theorem TableOk.mem_keysAt (T : TableOk t chain m) {i : ℕ} :
    k ∈ keysAt t.nodes (chain i) ↔ m k ≠ none ∧ ∃ h, hashcode k = some h ∧ h.tmod t.size = i := by
  constructor
  · intro hk
    obtain ⟨x, hx, hkey⟩ := List.mem_filterMap.mp hk
    obtain ⟨n, hn, hh, -, hi⟩ := T.placed i x hx
    obtain rfl : n.key = k := by simpa [hn] using hkey
    have hentry := (T.entries n.key n.val).mpr ⟨x, n, ⟨i, hx⟩, hn, rfl, rfl⟩
    exact ⟨by simp [hentry], n.hashcode, hh, hi⟩
  · rintro ⟨hk, h, hh, hi⟩
    obtain ⟨v, hv⟩ := Option.ne_none_iff_exists'.mp hk
    obtain ⟨x, n, ⟨j, hx⟩, hn, rfl, -⟩ := (T.entries k v).mp hv
    obtain ⟨n', hn', hh', -, hj⟩ := T.placed j x hx
    obtain rfl : n = n' := Option.some.inj (hn.symm.trans hn')
    obtain rfl : n.hashcode = h := Option.some.inj (hh'.symm.trans hh)
    obtain rfl : j = i := by omega
    exact List.mem_filterMap.mpr ⟨x, hx, by simp [hn]⟩

theorem TableOk.nodup_keysAt (T : TableOk t chain m) (i : ℕ) :
    (keysAt t.nodes (chain i)).Nodup := by
  have hnodup : (chain i).Nodup := by
    rcases lt_or_ge i t.store.length with hi | hi
    · exact (T.chains.chains i _ (List.getElem?_eq_getElem hi)).nodup
    · rw [T.chains.outside i hi]
      exact .nil
  refine List.pairwise_filterMap.mpr (hnodup.imp_of_mem fun {x y} hx hy hne k hk k' hk' he ↦ hne ?_)
  obtain ⟨n, hn, rfl⟩ := Option.map_eq_some_iff.mp hk
  obtain ⟨n', hn', rfl⟩ := Option.map_eq_some_iff.mp hk'
  exact T.unique x y n n' ⟨i, hx⟩ ⟨i, hy⟩ hn hn' he

theorem hashcode_le {s : CString} {h : ℤ} (hs : s.Ascii) (hr : hashcode s = some h) :
    h ≤ BIG_PRIME := by
  obtain ⟨h', hh', -, hle⟩ := hashcode_eq hs (hashcode_length hr)
  rwa [Option.some.inj (hr.symm.trans hh')]

namespace TableOk

theorem htableInsert_new (T : TableOk t chain m) (hh : hashcode key = some hcode) (hpos : 0 ≤ hcode)
    (hnew : m key = none) (h : Hashtable.htableInsert t key val = some (r, t')) :
    ∃ chain', TableOk t' chain' (Function.update m key (some val)) ∧
      t'.allowResize = t.allowResize ∧
      (t.allowResize ≠ 0 ∧ MAX_COLLISION ≤ (chain (hcode.tmod t.size).toNat).length ∧
          2 * t.size < 2 ^ 31 ∧ t'.size = nextSize t.size ∨
        ¬ (t.allowResize ≠ 0 ∧ MAX_COLLISION ≤ (chain (hcode.tmod t.size).toNat).length) ∧
          t'.size = t.size) := by
  rw [Hashtable.htableInsert, hh, Option.bind_eq_bind, Option.bind_some, T.slotOf,
    Option.bind_eq_bind, Option.bind_some] at h
  obtain ⟨⟨c, t₁⟩, ht₁, hr⟩ := Option.bind_eq_some_iff.mp h
  rcases T.insertAt hh hpos ht₁ with ⟨hm, -, -⟩ | ⟨-, rfl, chain₁, T₁, hsize, hallow⟩
  · exact absurd hnew hm
  · simp only [ge_iff_le, hallow] at hr
    split_ifs at hr with hres
    · obtain ⟨t₂, ht₂, hret⟩ := Option.bind_eq_some_iff.mp hr
      simp only [Option.some_inj, Prod.mk.injEq] at hret
      obtain ⟨-, rfl⟩ := hret
      obtain ⟨size, hnext, hrehash⟩ := Option.bind_eq_some_iff.mp ht₂
      obtain ⟨twice, htwice, hprime⟩ := Option.bind_eq_some_iff.mp hnext
      obtain ⟨hfits, rfl⟩ := checked_eq_some.mp htwice
      have hdouble : 2 * t.size < 2 ^ 31 := by
        have := fits_int.mp hfits
        omega
      rw [hsize, (nextSize_spec hdouble).1, Option.some_inj] at hprime
      obtain ⟨hsize_pos, hsize_lt⟩ := T₁.newSize_bounds hnext
      obtain ⟨t₃, chain₃, ht₃, T₃, hsize₃, hallow₃, -⟩ := T₁.rehash hsize_pos hsize_lt
      obtain rfl : t₂ = t₃ := Option.some.inj (hrehash.symm.trans ht₃)
      exact ⟨chain₃, T₃, hallow₃.trans hallow,
        .inl ⟨hres.1, hres.2, hdouble, hsize₃.trans hprime.symm⟩⟩
    · simp only [Option.some_inj, Prod.mk.injEq] at hr
      obtain ⟨-, rfl⟩ := hr
      exact ⟨chain₁, T₁, hallow, .inr ⟨hres, hsize⟩⟩

theorem resizedBy (T : TableOk t chain m) (hh : hashcode key = some hcode) (hpos : 0 ≤ hcode)
    (h : ResizedBy t key t') :
    MAX_COLLISION ≤ (chain (hcode.tmod t.size).toNat).length ∧ t'.size = t.size ∧
      ∃ chain' m', TableOk t' chain' m' := by
  obtain ⟨hcode', slot, val, collision, hh', hslot, hins, -, hmax⟩ := h
  obtain rfl : hcode = hcode' := Option.some.inj (hh.symm.trans hh')
  obtain rfl : hcode.tmod t.size = slot := Option.some.inj (T.slotOf.symm.trans hslot)
  rcases T.insertAt hh hpos hins with ⟨-, hnone, -⟩ | ⟨-, hcount, chain₁, T₁, hsize, -⟩
  · cases hnone
  · obtain rfl := Option.some.inj hcount
    exact ⟨hmax, hsize, chain₁, _, T₁⟩

theorem exists_resizedBy (T : TableOk t chain m) (hh : hashcode key = some hcode)
    (hpos : 0 ≤ hcode) (hnew : m key = none) (hallow : t.allowResize ≠ 0)
    (hmax : MAX_COLLISION ≤ (chain (hcode.tmod t.size).toNat).length)
    (hlen : (chain (hcode.tmod t.size).toNat).length < 2 ^ 31) :
    ∃ t', ResizedBy t key t' ∧ t'.size = t.size := by
  obtain ⟨c, t₁, ht₁⟩ := T.insertAt_isSome 0 hh hpos hlen
  rcases T.insertAt hh hpos ht₁ with ⟨hm, -, -⟩ | ⟨-, rfl, chain₁, -, hsize, hallow₁⟩
  · exact absurd hnew hm
  · refine ⟨t₁, ⟨hcode, _, 0, _, hh, T.slotOf, ht₁, ?_, hmax⟩, hsize⟩
    rwa [hallow₁]

theorem growsWithinInt_iff (T : TableOk t chain m) (hh : hashcode key = some hcode)
    (hpos : 0 ≤ hcode) (hnew : m key = none) (hallow : t.allowResize ≠ 0)
    (hlen : (chain (hcode.tmod t.size).toNat).length < 2 ^ 31) :
    GrowsWithinInt t key ↔
      (MAX_COLLISION ≤ (chain (hcode.tmod t.size).toNat).length → 2 * t.size ≤ 2147483647) := by
  constructor
  · intro hgrows hmax
    obtain ⟨t', ht', hsize⟩ := T.exists_resizedBy hh hpos hnew hallow hmax hlen
    rw [← hsize]
    exact (hgrows t' ht').1
  · intro hdouble t' ht'
    obtain ⟨hmax, hsize, chain', m', T'⟩ := T.resizedBy hh hpos ht'
    have hle : 2 * t'.size ≤ 2147483647 := by
      rw [hsize]
      exact hdouble hmax
    have htwice : int (2 * t'.size) = some (2 * t'.size) :=
      int_of_bounds (by have := T'.size_pos; omega) (by omega)
    have hpos' := T'.size_pos
    obtain ⟨hprime, hge, -⟩ := nextSize_spec (by omega : 2 * t'.size < 2 ^ 31)
    refine ⟨hle, nextSize t'.size, ?_, by omega⟩
    rw [newSize, htwice, Option.bind_eq_bind, Option.bind_some, hprime]

end TableOk

namespace GrowthOk

variable (G : GrowthOk t₀ s chain m)
include G

theorem length_chain_le (i : ℕ) : (chain i).length ≤ s.keys.length := by
  rw [← G.ok.length_keysAt]
  exact ((G.ok.nodup_keysAt i).subperm fun k hk ↦
    (G.keys k).mpr (G.ok.mem_keysAt.mp hk).1).length_le

/-- Keys with one hash code are all in one chain. -/
theorem crowd_le_length (hh : hashcode key = some hcode) (hpos : 0 ≤ hcode) :
    crowd s.keys key ≤ (chain (hcode.tmod s.table.size).toNat).length := by
  rw [← G.ok.length_keysAt, crowd, List.countP_eq_length_filter]
  refine ((G.nodup.filter _).subperm fun k hk ↦ ?_).length_le
  obtain ⟨hk, hkey⟩ := List.mem_filter.mp hk
  have hslot := (G.ok.slot_lt hpos).1
  exact G.ok.mem_keysAt.mpr ⟨(G.keys k).mp hk, hcode, by simpa [hh] using hkey, by omega⟩

theorem length_le_crowd (hlate : BIG_PRIME < s.table.size) (hk : key.Ascii)
    (hh : hashcode key = some hcode) (hpos : 0 ≤ hcode) :
    (chain (hcode.tmod s.table.size).toNat).length ≤ crowd s.keys key := by
  have hslot : ∀ {k h}, k.Ascii → hashcode k = some h → h.tmod s.table.size = h := fun hk hh ↦
    Int.tmod_eq_of_lt (hashcode_nonneg hk hh) ((hashcode_le hk hh).trans_lt hlate)
  rw [← G.ok.length_keysAt, crowd, List.countP_eq_length_filter]
  refine ((G.ok.nodup_keysAt _).subperm fun k hmem ↦ ?_).length_le
  obtain ⟨hm, h, hh', hi⟩ := G.ok.mem_keysAt.mp hmem
  have hkeys := (G.keys k).mpr hm
  rw [hslot (G.ascii k hkeys) hh', hslot hk hh, Int.toNat_of_nonneg hpos] at hi
  exact List.mem_filter.mpr ⟨hkeys, by simp [hh', hh, hi]⟩

theorem hashcode_of_mem (hk : k ∈ s.keys) : ∃ h, hashcode k = some h ∧ 0 ≤ h := by
  obtain ⟨v, hv⟩ := Option.ne_none_iff_exists'.mp ((G.keys k).mp hk)
  obtain ⟨x, n, ⟨i, hx⟩, hn, rfl, -⟩ := (G.ok.entries k v).mp hv
  obtain ⟨n', hn', hh, hpos, -⟩ := G.ok.placed i x hx
  obtain rfl : n = n' := Option.some.inj (hn.symm.trans hn')
  exact ⟨n.hashcode, hh, hpos⟩

theorem crowd_lt (key : CString) : crowd s.keys key < 41 := by
  by_contra hge
  have hle := G.crowd_le key
  have hpow : (2 : ℤ) ^ 31 ≤ 2 ^ (crowd s.keys key - 10) :=
    pow_le_pow_right₀ (by norm_num) (by omega)
  have := G.ok.size_lt
  omega

theorem card_fibre_le (h : Option ℤ) :
    (s.keys.toFinset.filter fun k ↦ hashcode k = h).card ≤ 40 := by
  rcases (s.keys.toFinset.filter fun k ↦ hashcode k = h).eq_empty_or_nonempty with
    hnone | ⟨key, hkey⟩
  · rw [hnone]
    simp
  · obtain ⟨-, rfl⟩ := Finset.mem_filter.mp hkey
    have hfilter : s.keys.toFinset.filter (fun k ↦ hashcode k = hashcode key) =
        (s.keys.filter fun k ↦ hashcode k = hashcode key).toFinset := by
      ext k
      simp
    rw [hfilter]
    refine (List.toFinset_card_le _).trans ?_
    rw [← List.countP_eq_length_filter]
    exact Nat.le_of_lt_succ (G.crowd_lt key)

theorem length_keys_lt : s.keys.length < 2 ^ 31 := by
  have hmaps : ∀ k ∈ s.keys.toFinset, hashcode k ∈ (Finset.Icc 0 BIG_PRIME).image some := by
    intro k hk
    obtain ⟨h, hh, hpos⟩ := G.hashcode_of_mem (List.mem_toFinset.mp hk)
    rw [hh]
    exact Finset.mem_image_of_mem _ (Finset.mem_Icc.mpr
      ⟨hpos, hashcode_le (G.ascii k (List.mem_toFinset.mp hk)) hh⟩)
  have hcount := Finset.card_le_mul_card_image_of_maps_to hmaps 40 fun h _ ↦ G.card_fibre_le h
  have hcard : ((Finset.Icc 0 BIG_PRIME).image some).card ≤ 1560008 :=
    Finset.card_image_le.trans (by simp [BIG_PRIME])
  rw [List.toFinset_card_of_nodup G.nodup] at hcount
  omega

theorem length_chain_lt (i : ℕ) : (chain i).length < 2 ^ 31 :=
  (G.length_chain_le i).trans_lt G.length_keys_lt

theorem not_mem_iff : key ∉ s.keys ↔ m key = none := by
  rw [G.keys, not_not]

/-- Above the hash codes an insert resizes when it is crowded. -/
theorem crowded_iff (hk : key.Ascii) (hh : hashcode key = some hcode) :
    s.Crowded key ↔ BIG_PRIME < s.table.size ∧
      MAX_COLLISION ≤ (chain (hcode.tmod s.table.size).toNat).length := by
  have hpos := hashcode_nonneg hk hh
  refine and_congr_right fun hlate ↦ ?_
  rw [(G.crowd_le_length hh hpos).antisymm (G.length_le_crowd hlate hk hh hpos)]

theorem insert (hk : key.Ascii) (hnew : key ∉ s.keys)
    (h : htableInsert s.table key val = some (r, t)) :
    ∃ chain' m', GrowthOk t₀ ⟨t, key :: s.keys, s.crowdedWith key⟩ chain' m' := by
  have hcoll : MAX_COLLISION = 10 := rfl
  obtain ⟨hcode, hh, -⟩ := Option.bind_eq_some_iff.mp h
  have hpos := hashcode_nonneg hk hh
  have hsize := G.ok.size_pos
  have hcrowded := G.crowded_iff hk hh
  have hcrowd := G.crowd_le_length hh hpos
  have hroom := G.room_eq
  obtain ⟨chain', T', hallow, hcases⟩ :=
    G.ok.htableInsert_new hh hpos (G.not_mem_iff.mp hnew) h
  simp only [G.allow, ne_eq, one_ne_zero, not_false_eq_true, true_and] at hcases
  refine ⟨chain', _, T', hallow.trans G.allow, fun k ↦ ?_, ?_, List.nodup_cons.mpr ⟨hnew, G.nodup⟩,
    fun k ↦ ?_, ?_⟩
  · rw [List.mem_cons, G.keys]
    by_cases hkey : k = key
    · subst hkey
      simp
    · simp [hkey]
  · exact List.forall_mem_cons.mpr ⟨hk, G.ascii⟩
  · rcases hcases with ⟨-, hdouble, hnext⟩ | ⟨hshort, hsame⟩
    · have hge : 2 * s.table.size ≤ t.size := hnext ▸ (nextSize_spec hdouble).2.1
      exact crowd_le_cons (G.crowd_le k) (by linarith) fun _ _ ↦ hge
    · refine crowd_le_cons (G.crowd_le k) hsame.ge fun hkey hten ↦ absurd ?_ hshort
      rw [crowd_congr hkey] at hten
      omega
  · simp only [Growth.crowdedWith]
    rcases hcases with ⟨hmax, hdouble, hnext⟩ | ⟨hshort, hsame⟩
    · rw [hnext]
      rcases lt_or_ge BIG_PRIME s.table.size with hlate | hearly
      · rw [if_pos (hcrowded.mpr ⟨hlate, hmax⟩)]
        rw [room_late hlate hdouble] at hroom
        omega
      · rw [if_neg fun hc ↦ (hc.1.trans_le hearly).false, ← room_early hsize hearly, add_zero]
        exact hroom
    · rw [if_neg fun hc ↦ hshort (hcrowded.mp hc).2, hsame, add_zero]
      exact hroom

theorem htableInsert_isSome (val : ℕ) (hk : key.Ascii) (hlen : key.chars.length < 2 ^ 31)
    (hnew : key ∉ s.keys) (hgrows : GrowsWithinInt s.table key) :
    ∃ r t, htableInsert s.table key val = some (r, t) := by
  obtain ⟨hcode, hh, hpos, -⟩ := hashcode_eq hk hlen
  have hallow : s.table.allowResize ≠ 0 := by
    rw [G.allow]
    exact one_ne_zero
  have hfits := (G.ok.growsWithinInt_iff hh hpos (G.not_mem_iff.mp hnew) hallow
    (G.length_chain_lt _)).mp hgrows
  have hchain : ∀ xs, KeyChain s.table key xs → xs = chain (hcode.tmod s.table.size).toNat := by
    rintro xs ⟨hcode', p, i, hh', hi, hp, hxs⟩
    obtain rfl : hcode = hcode' := Option.some.inj (hh.symm.trans hh')
    rw [hi, Int.toNat_natCast]
    exact hxs.unique (G.ok.chains.chains i p hp)
  refine G.ok.htableInsert_isSome hk ⟨hlen, fun xs hxs ↦ ?_, fun xs hxs _ hmax ↦ ?_⟩
  · rw [hchain xs hxs]
    exact G.length_chain_lt _
  · rw [hchain xs hxs] at hmax
    have := hfits hmax
    omega

theorem growsWithinInt_iff (hk : key.Ascii) (hnew : key ∉ s.keys) :
    GrowsWithinInt s.table key ↔ s.crowdedWith key ≤ room t₀.size := by
  have hB : BIG_PRIME = 1560007 := rfl
  have hroom := G.room_eq
  have hsize := G.ok.size_pos
  cases hh : hashcode key with
  | none =>
    have hcalm : ¬ s.Crowded key := fun hc ↦ by
      have hzero : crowd s.keys key = 0 := List.countP_eq_zero.mpr fun k hmem ↦ by
        obtain ⟨h, hh', -⟩ := G.hashcode_of_mem hmem
        simp [hh, hh']
      rw [Growth.Crowded, hzero] at hc
      exact absurd hc.2 (by decide)
    rw [Growth.crowdedWith, if_neg hcalm]
    refine iff_of_true ?_ (by omega)
    rintro t' ⟨hcode, slot, v, collision, hh', -⟩
    rw [hh] at hh'
    cases hh'
  | some hcode =>
    have hpos := hashcode_nonneg hk hh
    have hcrowded := G.crowded_iff hk hh
    rw [G.ok.growsWithinInt_iff hh hpos (G.not_mem_iff.mp hnew) (by rw [G.allow]; exact one_ne_zero)
      (G.length_chain_lt _), Growth.crowdedWith]
    by_cases hc : s.Crowded key
    · obtain ⟨hlate, hmax⟩ := hcrowded.mp hc
      rw [if_pos hc]
      constructor
      · intro hdouble
        have hfits := hdouble hmax
        rw [room_late hlate (by omega)] at hroom
        omega
      · intro hle _
        by_contra hbig
        rw [room_eq_zero (by omega)] at hroom
        omega
    · rw [if_neg hc]
      refine iff_of_true (fun hmax ↦ ?_) (by omega)
      have hearly : s.table.size ≤ BIG_PRIME :=
        not_lt.mp fun hlate ↦ hc (hcrowded.mpr ⟨hlate, hmax⟩)
      omega

end GrowthOk

theorem htableInit_growthOk (hsz : 0 ≤ sz) (h : htableInit sz 1 = some t₀) :
    GrowthOk t₀ ⟨t₀, [], 0⟩ (fun _ ↦ []) fun _ ↦ none := by
  obtain ⟨T, hallow⟩ := htableInit_spec hsz h
  refine ⟨T, hallow, by simp, by simp, .nil, fun key ↦ ?_, zero_add _⟩
  have hsize := T.size_pos
  simp only [crowd, List.countP_nil, Nat.zero_sub, pow_zero]
  omega

theorem Grows.growthOk (hsz : 0 ≤ sz) (h : htableInit sz 1 = some t₀) (hs : Grows t₀ s) :
    ∃ chain m, GrowthOk t₀ s chain m := by
  refine hs.invariant (I := fun s ↦ ∃ chain m, GrowthOk t₀ s chain m) ?_ ?_
  · rintro _ rfl
    exact ⟨_, _, htableInit_growthOk hsz h⟩
  · rintro _ _ ⟨_, _, G⟩ ⟨hk, hnew, hins⟩
    exact G.insert hk hnew hins

theorem htableInit_size (hsz : 1 ≤ sz) (hsz' : sz ≤ 10000) (h : htableInit sz 1 = some t₀) :
    0 < t₀.size ∧ t₀.size ≤ BIG_PRIME := by
  obtain ⟨min, hmin, h⟩ := Option.bind_eq_some_iff.mp h
  obtain ⟨-, rfl⟩ := checked_eq_some.mp hmin
  obtain ⟨p, hp, hle, -⟩ := getPrime_eq (n := sz + 1) (by omega)
  have hbound : p ≤ (10007 : ℕ) := getPrime_le (by norm_num) (by norm_num) (by omega) hp
  have hB : BIG_PRIME = 1560007 := rfl
  rw [hp, Option.bind_eq_bind, Option.bind_some] at h
  obtain rfl := Option.some.inj h
  exact ⟨by simp only; omega, by simp only; omega⟩

theorem Grows.crowdedWith_le (hs : Grows t₀ s) (key : CString) :
    s.crowdedWith key ≤ s.keys.length + 1 - 10 := by
  have hstep : ∀ {s : Growth}, s.crowded ≤ s.keys.length - 10 → ∀ key,
      s.crowdedWith key ≤ s.keys.length + 1 - 10 := by
    intro s hle key
    rw [Growth.crowdedWith]
    split_ifs with hc
    · have hcoll : MAX_COLLISION = 10 := rfl
      have hmany := hc.2
      have hcount : crowd s.keys key ≤ s.keys.length := List.countP_le_length
      omega
    · omega
  refine hstep (hs.invariant (I := fun s ↦ s.crowded ≤ s.keys.length - 10) ?_ ?_) key
  · rintro _ rfl
    exact Nat.zero_le _
  · rintro _ _ hle ⟨-, -, -⟩
    exact hstep hle _

/-- Six blocks "Axz" or "YFA", as the bits of `n` say. The blocks differ by 1560007. -/
def clash (n : ℕ) : CString :=
  ⟨(List.range 6).flatMap fun i ↦ if n.testBit i then [65, 120, 122] else [89, 70, 65], by
    intro c hc
    obtain ⟨i, -, hc⟩ := List.mem_flatMap.mp hc
    split_ifs at hc
    all_goals
      simp only [List.mem_cons, List.not_mem_nil, or_false] at hc
      rcases hc with rfl | rfl | rfl <;> decide⟩

theorem hashcode_clash : ∀ n < 41, hashcode (clash n) = some 1555644 := by decide +kernel

theorem clash_ascii : ∀ n < 41, ∀ c ∈ (clash n).chars, 0 < c := by decide +kernel

theorem clash_ne : ∀ a < 41, ∀ b < a, (clash a).chars ≠ (clash b).chars := by decide +kernel

theorem clash_new {n : ℕ} (hn : n < 41) : clash n ∉ ((List.range n).map clash).reverse := by
  intro hmem
  simp only [List.mem_reverse, List.mem_map, List.mem_range] at hmem
  obtain ⟨b, hb, he⟩ := hmem
  exact clash_ne n hn b hb (by rw [he])

theorem crowd_clash {n k : ℕ} (hn : n ≤ 41) (hk : k < 41) :
    crowd ((List.range n).map clash).reverse (clash k) = n := by
  have hall : crowd ((List.range n).map clash).reverse (clash k) =
      ((List.range n).map clash).reverse.length := by
    refine List.countP_eq_length.mpr fun key hkey ↦ ?_
    simp only [List.mem_reverse, List.mem_map, List.mem_range] at hkey
    obtain ⟨b, hb, rfl⟩ := hkey
    simp [hashcode_clash b (by omega), hashcode_clash k hk]
  simpa using hall

theorem crowdedWith_clash {k : ℕ} (hk : k < 13) (hs : Grows (emptyTable 1) s)
    (hkeys : s.keys = ((List.range k).map clash).reverse) :
    s.crowdedWith (clash k) ≤ room (emptyTable 1).size := by
  obtain ⟨hpos, hle⟩ := htableInit_size le_rfl (by norm_num) htableInit_one
  have hroom := nine_le_room hpos hle
  have hbound := hs.crowdedWith_le (clash k)
  have hlen : s.keys.length = k := by simp [hkeys]
  omega

theorem exists_grows_clash {n : ℕ} (hn : n ≤ 41)
    (hgrows : ∀ k < n, ∀ s, Grows (emptyTable 1) s → s.keys = ((List.range k).map clash).reverse →
      GrowsWithinInt s.table (clash k)) :
    ∃ s, Grows (emptyTable 1) s ∧ s.keys = ((List.range n).map clash).reverse := by
  induction n with
  | zero => exact ⟨_, .start rfl, rfl⟩
  | succ n ih =>
    obtain ⟨s, hs, hkeys⟩ := ih (by omega) fun k hk ↦ hgrows k (by omega)
    obtain ⟨chain, m, G⟩ := hs.growthOk zero_le_one htableInit_one
    have hk : (clash n).Ascii := clash_ascii n (by omega)
    have hlen := hashcode_length (hashcode_clash n (by omega))
    have hnew : clash n ∉ s.keys := hkeys ▸ clash_new (by omega)
    obtain ⟨r, t, ht⟩ := G.htableInsert_isSome 0 hk hlen hnew (hgrows n (by omega) s hs hkeys)
    exact ⟨_, .next hs (.insert hk hnew ht), by simp [List.range_succ, hkeys]⟩

/-- In every run the table can be grown as long as the crowded inserts are no more than the
sizes above the hash codes that can be doubled, and those are nine or ten. -/
theorem growth_within_int_iff (hsz : 1 ≤ sz) (hsz' : sz ≤ 10000) (h : htableInit sz 1 = some t₀)
    (hs : Grows t₀ s) (hk : key.Ascii) (hnew : key ∉ s.keys) :
    0 < s.table.size ∧
    (GrowsWithinInt s.table key ↔ s.crowdedWith key ≤ room t₀.size) ∧
    9 ≤ room t₀.size ∧ room t₀.size ≤ 10 := by
  obtain ⟨chain, m, G⟩ := hs.growthOk (by omega) h
  obtain ⟨hpos, hle⟩ := htableInit_size hsz hsz' h
  exact ⟨G.ok.size_pos, G.growsWithinInt_iff hk hnew, nine_le_room hpos hle, room_le_ten hpos⟩

/-- Twelve keys of one hash code are in the table, and the next one makes it grow. -/
theorem growth_within_int_clash : ∃ s t', Grows (emptyTable 1) s ∧ s.keys.length = 12 ∧
    ResizedBy s.table (clash 12) t' ∧ 2 * t'.size ≤ 2147483647 ∧
    ∃ size, newSize t' = some size ∧ t'.size < size := by
  obtain ⟨s, hs, hkeys⟩ := exists_grows_clash (n := 12) (by norm_num) fun k hk s hs hkeys ↦ by
    obtain ⟨chain, m, G⟩ := hs.growthOk zero_le_one htableInit_one
    have hnew : clash k ∉ s.keys := hkeys ▸ clash_new (by omega)
    exact (G.growsWithinInt_iff (clash_ascii k (by omega)) hnew).mpr
      (crowdedWith_clash (by omega) hs hkeys)
  have hnew : clash 12 ∉ s.keys := hkeys ▸ clash_new (by norm_num)
  have hk : (clash 12).Ascii := clash_ascii 12 (by norm_num)
  obtain ⟨-, hiff, -, -⟩ := growth_within_int_iff le_rfl (by norm_num) htableInit_one hs hk hnew
  have hgrows := hiff.mpr (crowdedWith_clash (by norm_num) hs hkeys)
  obtain ⟨chain, m, G⟩ := hs.growthOk zero_le_one htableInit_one
  have hh := hashcode_clash 12 (by norm_num)
  have hmany := G.crowd_le_length hh (by norm_num)
  rw [hkeys, crowd_clash (by norm_num) (by norm_num)] at hmany
  have hcoll : MAX_COLLISION = 10 := rfl
  obtain ⟨t', ht', -⟩ := G.ok.exists_resizedBy hh (by norm_num) (G.not_mem_iff.mp hnew)
    (by rw [G.allow]; exact one_ne_zero) (by omega) (G.length_chain_lt _)
  exact ⟨s, t', hs, by simp [hkeys], ht', hgrows t' ht'⟩

theorem growth_exceeds_int : ¬ ∀ sz t₀ s key, 1 ≤ sz → sz ≤ 10000 →
    htableInit sz 1 = some t₀ → Grows t₀ s → key.Ascii → key ∉ s.keys →
    0 < s.table.size ∧ GrowsWithinInt s.table key := by
  intro h
  obtain ⟨s, hs, hkeys⟩ := exists_grows_clash (n := 41) le_rfl fun k hk s hs hkeys ↦
    (h 1 _ s (clash k) le_rfl (by norm_num) htableInit_one hs (clash_ascii k hk)
      (hkeys ▸ clash_new hk)).2
  obtain ⟨chain, m, G⟩ := hs.growthOk zero_le_one htableInit_one
  have hlt := G.crowd_lt (clash 0)
  rw [hkeys, crowd_clash le_rfl (by norm_num)] at hlt
  exact lt_irrefl _ hlt

end CsoLabs.Hashtable

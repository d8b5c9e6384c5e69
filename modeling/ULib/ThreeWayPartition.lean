import ULib.InPlaceSort

/-!
The partition of a section around the key of its first element: two scans
gather the elements with that key at both ends while they approach one another,
and these elements are moved to the middle at the end.
-/

namespace ULib.ThreeWayPartition

open ULib.InPlaceSort

variable {α : Type*}

/-- The array and the four pointers. -/
structure Scan (α : Type*) where
  a : Nat → α
  pa : Nat
  pb : Nat
  pc : Nat
  pd : Nat

/-- The scan from the left, over at most so many elements. -/
def scanUp (key : α → Int) (v : Int) : Nat → Scan α → Scan α
  | 0, s => s
  | k + 1, s =>
      if key (s.a s.pb) - v ≤ 0 then
        if key (s.a s.pb) - v = 0 then
          scanUp key v k { s with a := swap2 s.a s.pa s.pb, pa := s.pa + 1, pb := s.pb + 1 }
        else scanUp key v k { s with pb := s.pb + 1 }
      else s

/-- The scan from the right. -/
def scanDown (key : α → Int) (v : Int) : Nat → Scan α → Scan α
  | 0, s => s
  | k + 1, s =>
      if key (s.a s.pc) - v ≥ 0 then
        if key (s.a s.pc) - v = 0 then
          scanDown key v k { s with a := swap2 s.a s.pc s.pd, pc := s.pc - 1, pd := s.pd - 1 }
        else scanDown key v k { s with pc := s.pc - 1 }
      else s

/-- Both scans; each ends where `pb` has passed `pc`. -/
def scans (key : α → Int) (v : Int) (s : Scan α) : Scan α :=
  let s := scanUp key v (s.pc + 1 - s.pb) s
  scanDown key v (s.pc + 1 - s.pb) s

def exchange (s : Scan α) : Scan α :=
  { s with a := swap2 s.a s.pb s.pc, pb := s.pb + 1, pc := s.pc - 1 }

/-- The loop, in which every round but the last exchanges two elements. -/
def scanLoop (key : α → Int) (v : Int) : Nat → Scan α → Scan α
  | 0, s => s
  | k + 1, s =>
      let s := scans key v s
      if s.pb > s.pc then s else scanLoop key v k (exchange s)

def start (a : Nat → α) (lo n : Nat) : Scan α := ⟨a, lo + 1, lo + 1, lo + n - 1, lo + n - 1⟩

/-- The elements at both ends are moved to the middle. -/
def gather (lo n : Nat) (s : Scan α) : Nat → α :=
  let r := min (s.pa - lo) (s.pb - s.pa)
  let a := vecswap2 s.a lo (s.pb - r) r
  let r := min (s.pd - s.pc) (lo + n - s.pd - 1)
  vecswap2 a s.pb (lo + n - r) r

def scanned (key : α → Int) (lo n : Nat) (a : Nat → α) : Scan α :=
  scanLoop key (key (a lo)) n (start a lo n)

def partition (key : α → Int) (lo n : Nat) (a : Nat → α) : Nat → α :=
  gather lo n (scanned key lo n a)

/-! ### The scans -/

/-- What was scanned is in place, with respect to the key `v` of the pivot. -/
structure Scanning (key : α → Int) (v : Int) (lo n : Nat) (a₀ : Nat → α) (s : Scan α) : Prop where
  moved : Rearranged lo n a₀ s.a
  pa_gt : lo < s.pa
  pa_le : s.pa ≤ s.pb
  pb_le : s.pb ≤ s.pc + 1
  pc_le : s.pc ≤ s.pd
  pd_lt : s.pd < lo + n
  left : ∀ i, lo ≤ i → i < s.pa → key (s.a i) = v
  less : ∀ i, s.pa ≤ i → i < s.pb → key (s.a i) < v
  greater : ∀ i, s.pc < i → i ≤ s.pd → v < key (s.a i)
  right : ∀ i, s.pd < i → i < lo + n → key (s.a i) = v

section

variable {key : α → Int} {v : Int} {lo n : Nat} {a₀ : Nat → α} {s : Scan α}

theorem swap2_other (a : Nat → α) {i j k : Nat} (hi : k ≠ i) (hj : k ≠ j) :
    swap2 a i j k = a k := by
  rw [swap2, if_neg hi, if_neg hj]

theorem swap2_left (a : Nat → α) (i j : Nat) : swap2 a i j i = a j := by
  rw [swap2, if_pos rfl]

theorem swap2_right (a : Nat → α) (i j : Nat) : swap2 a i j j = a i := by
  by_cases h : j = i
  · rw [h, swap2_left]
  · rw [swap2, if_neg h, if_pos rfl]

theorem Scanning.up_equal (h : Scanning key v lo n a₀ s) (hle : s.pb ≤ s.pc)
    (heq : key (s.a s.pb) = v) :
    Scanning key v lo n a₀
      { s with a := swap2 s.a s.pa s.pb, pa := s.pa + 1, pb := s.pb + 1 } := by
  obtain ⟨hmoved, hpa, hab, hbc, hcd, hd, hleft, hless, hgreater, hright⟩ := h
  refine ⟨hmoved.trans (swap2_rearranged s.a (by omega) (by omega)), by dsimp only; omega,
    by dsimp only; omega, by dsimp only; omega, hcd, hd, ?_, ?_, ?_, ?_⟩ <;> dsimp only
  · intro i hlo hi
    by_cases hend : i = s.pa
    · rw [hend, swap2_left]
      exact heq
    · rw [swap2_other _ hend (by omega)]
      exact hleft i hlo (by omega)
  · intro i hi hib
    by_cases hend : i = s.pb
    · rw [hend, swap2_right]
      exact hless s.pa le_rfl (by omega)
    · rw [swap2_other _ (by omega) hend]
      exact hless i (by omega) (by omega)
  · intro i hi hid
    rw [swap2_other _ (by omega) (by omega)]
    exact hgreater i hi hid
  · intro i hi hin
    rw [swap2_other _ (by omega) (by omega)]
    exact hright i hi hin

theorem Scanning.up_less (h : Scanning key v lo n a₀ s) (hle : s.pb ≤ s.pc)
    (hlt : key (s.a s.pb) < v) : Scanning key v lo n a₀ { s with pb := s.pb + 1 } := by
  refine ⟨h.moved, h.pa_gt, Nat.le_succ_of_le h.pa_le, Nat.succ_le_succ hle, h.pc_le, h.pd_lt,
    h.left, fun i hi hib => ?_, h.greater, h.right⟩
  by_cases hend : i = s.pb
  · rw [hend]
    exact hlt
  · exact h.less i hi (Nat.lt_of_le_of_ne (Nat.le_of_lt_succ hib) hend)

theorem Scanning.down_equal (h : Scanning key v lo n a₀ s) (hle : s.pb ≤ s.pc)
    (heq : key (s.a s.pc) = v) :
    Scanning key v lo n a₀
      { s with a := swap2 s.a s.pc s.pd, pc := s.pc - 1, pd := s.pd - 1 } := by
  obtain ⟨hmoved, hpa, hab, hbc, hcd, hd, hleft, hless, hgreater, hright⟩ := h
  refine ⟨hmoved.trans (swap2_rearranged s.a (by omega) (by omega)), hpa, hab,
    by dsimp only; omega, by dsimp only; omega, by dsimp only; omega, ?_, ?_, ?_, ?_⟩ <;> dsimp only
  · intro i hlo hi
    rw [swap2_other _ (by omega) (by omega)]
    exact hleft i hlo hi
  · intro i hi hib
    rw [swap2_other _ (by omega) (by omega)]
    exact hless i hi hib
  · intro i hi hid
    by_cases hend : i = s.pc
    · rw [hend, swap2_left]
      exact hgreater s.pd (by omega) le_rfl
    · rw [swap2_other _ hend (by omega)]
      exact hgreater i (by omega) (by omega)
  · intro i hi hin
    by_cases hend : i = s.pd
    · rw [hend, swap2_right]
      exact heq
    · rw [swap2_other _ (by omega) hend]
      exact hright i (by omega) hin

theorem Scanning.down_greater (h : Scanning key v lo n a₀ s) (hle : s.pb ≤ s.pc)
    (hlt : v < key (s.a s.pc)) : Scanning key v lo n a₀ { s with pc := s.pc - 1 } := by
  have hpa := h.pa_gt
  have hab := h.pa_le
  have hcd := h.pc_le
  refine ⟨h.moved, h.pa_gt, h.pa_le, by dsimp only; omega, by dsimp only; omega, h.pd_lt,
    h.left, h.less, fun i hi hid => ?_, h.right⟩
  by_cases hend : i = s.pc
  · rw [hend]
    exact hlt
  · exact h.greater i (by dsimp only at hi; omega) hid

theorem Scanning.exchange (h : Scanning key v lo n a₀ s) (hle : s.pb < s.pc)
    (hb : v < key (s.a s.pb)) (hc : key (s.a s.pc) < v) :
    Scanning key v lo n a₀ (exchange s) := by
  obtain ⟨hmoved, hpa, hab, hbc, hcd, hd, hleft, hless, hgreater, hright⟩ := h
  refine ⟨hmoved.trans (swap2_rearranged s.a (by omega) (by omega)), hpa,
    Nat.le_succ_of_le hab, ?_, ?_, hd, ?_, ?_, ?_, ?_⟩ <;> dsimp only [ThreeWayPartition.exchange]
  · omega
  · omega
  · intro i hlo hi
    rw [swap2_other _ (by omega) (by omega)]
    exact hleft i hlo hi
  · intro i hi hib
    by_cases hend : i = s.pb
    · rw [hend, swap2_left]
      exact hc
    · rw [swap2_other _ hend (by omega)]
      exact hless i hi (by omega)
  · intro i hi hid
    by_cases hend : i = s.pc
    · rw [hend, swap2_right]
      exact hb
    · rw [swap2_other _ (by omega) hend]
      exact hgreater i (by omega) hid
  · intro i hi hin
    rw [swap2_other _ (by omega) (by omega)]
    exact hright i hi hin

theorem scanUp_spec {k : Nat} (h : Scanning key v lo n a₀ s) (hk : k = s.pc + 1 - s.pb) :
    Scanning key v lo n a₀ (scanUp key v k s) ∧ (scanUp key v k s).pc = s.pc ∧
      s.pb ≤ (scanUp key v k s).pb ∧
      ((scanUp key v k s).pb ≤ s.pc →
        v < key ((scanUp key v k s).a (scanUp key v k s).pb)) := by
  induction k generalizing s with
  | zero => exact ⟨h, rfl, le_rfl, fun hle => by simp only [scanUp] at hle; omega⟩
  | succ k ih =>
      have hle : s.pb ≤ s.pc := by omega
      rw [scanUp]
      split_ifs with hstep heq
      · obtain ⟨hs, hpc, hpb, hstop⟩ := ih (h.up_equal hle (by omega)) (by dsimp only; omega)
        exact ⟨hs, hpc, Nat.le_of_succ_le hpb, hstop⟩
      · obtain ⟨hs, hpc, hpb, hstop⟩ := ih (h.up_less hle (by omega)) (by dsimp only; omega)
        exact ⟨hs, hpc, Nat.le_of_succ_le hpb, hstop⟩
      · exact ⟨h, rfl, le_rfl, fun _ => by omega⟩

theorem scanDown_spec {k : Nat} (h : Scanning key v lo n a₀ s) (hk : k = s.pc + 1 - s.pb)
    (hb : s.pb ≤ s.pc → v < key (s.a s.pb)) :
    Scanning key v lo n a₀ (scanDown key v k s) ∧ (scanDown key v k s).pb = s.pb ∧
      (scanDown key v k s).pc ≤ s.pc ∧
      (s.pb ≤ (scanDown key v k s).pc →
        v < key ((scanDown key v k s).a s.pb) ∧
          key ((scanDown key v k s).a (scanDown key v k s).pc) < v) := by
  induction k generalizing s with
  | zero =>
      refine ⟨h, rfl, le_rfl, fun hle => ?_⟩
      simp only [scanDown] at hle
      omega
  | succ k ih =>
      have hle : s.pb ≤ s.pc := by omega
      have hpb := h.pa_gt
      have hpa := h.pa_le
      have hpd := h.pc_le
      rw [scanDown]
      split_ifs with hstep heq
      · have hnext : s.pb ≤ s.pc - 1 → v < key (swap2 s.a s.pc s.pd s.pb) := by
          intro hlt
          rw [swap2_other _ (by omega) (by omega)]
          exact hb hle
        obtain ⟨hs, hpb', hpc, hstop⟩ :=
          ih (h.down_equal hle (by omega)) (by dsimp only; omega) hnext
        exact ⟨hs, hpb', hpc.trans (Nat.sub_le _ _), hstop⟩
      · obtain ⟨hs, hpb', hpc, hstop⟩ := ih (h.down_greater hle (by omega)) (by dsimp only; omega)
          fun _ => hb hle
        exact ⟨hs, hpb', hpc.trans (Nat.sub_le _ _), hstop⟩
      · exact ⟨h, rfl, le_rfl, fun _ => ⟨hb hle, by omega⟩⟩

/-- Unless the scans have met, they stand at two elements that are to be exchanged. -/
theorem scans_spec (h : Scanning key v lo n a₀ s) :
    Scanning key v lo n a₀ (scans key v s) ∧
      (scans key v s).pc + 1 - (scans key v s).pb ≤ s.pc + 1 - s.pb ∧
      ((scans key v s).pb ≤ (scans key v s).pc →
        v < key ((scans key v s).a (scans key v s).pb) ∧
          key ((scans key v s).a (scans key v s).pc) < v) := by
  obtain ⟨hup, hpc, hpb, hstop⟩ := scanUp_spec h rfl
  obtain ⟨hdown, hpb', hpc', hstop'⟩ := scanDown_spec hup rfl fun hle => hstop (hle.trans_eq hpc)
  refine ⟨hdown, ?_, fun hle => ?_⟩
  · rw [scans]
    omega
  · rw [scans, hpb'] at hle ⊢
    exact hstop' hle

theorem scanLoop_spec {k : Nat} (h : Scanning key v lo n a₀ s) (hk : s.pc + 1 - s.pb < k) :
    Scanning key v lo n a₀ (scanLoop key v k s) ∧
      (scanLoop key v k s).pb = (scanLoop key v k s).pc + 1 := by
  induction k generalizing s with
  | zero => exact absurd hk (Nat.not_lt_zero _)
  | succ k ih =>
      obtain ⟨hs, hgap, hstop⟩ := scans_spec h
      rw [scanLoop]
      by_cases hmet : (scans key v s).pb > (scans key v s).pc
      · rw [if_pos hmet]
        exact ⟨hs, Nat.le_antisymm hs.pb_le hmet⟩
      · obtain ⟨hb, hc⟩ := hstop (Nat.le_of_not_lt hmet)
        have hne : (scans key v s).pb ≠ (scans key v s).pc := by
          intro heq
          rw [heq] at hb
          omega
        rw [if_neg hmet]
        refine ih (hs.exchange (by omega) hb hc) ?_
        dsimp only [ThreeWayPartition.exchange]
        omega

theorem start_scanning (key : α → Int) (a : Nat → α) (lo : Nat) {n : Nat} (hn : 0 < n) :
    Scanning key (key (a lo)) lo n a (start a lo n) := by
  refine ⟨.refl lo n a, Nat.lt_succ_self lo, le_rfl, ?_, le_rfl, ?_, ?_, ?_, ?_, ?_⟩ <;>
    dsimp only [start]
  · omega
  · omega
  · intro i hlo hi
    obtain rfl : i = lo := by omega
    rfl
  · intro i hi hi'
    omega
  · intro i hi hi'
    omega
  · intro i hi hi'
    omega

/-! ### The partition -/

/-- Two neighbouring blocks change places, by an exchange of as many elements as the shorter one
has. -/
theorem vecswap2_blocks {P Q : α → Prop} {a : Nat → α} {i e l : Nat}
    (hP : ∀ k, i ≤ k → k < i + e → P (a k)) (hQ : ∀ k, i + e ≤ k → k < i + e + l → Q (a k)) :
    (∀ k, i ≤ k → k < i + l → Q (vecswap2 a i (i + e + l - min e l) (min e l) k)) ∧
      (∀ k, i + l ≤ k → k < i + e + l → P (vecswap2 a i (i + e + l - min e l) (min e l) k)) ∧
      ∀ k, k < i ∨ i + e + l ≤ k → vecswap2 a i (i + e + l - min e l) (min e l) k = a k := by
  have hmin : min e l ≤ e ∧ min e l ≤ l ∧ (min e l = e ∨ min e l = l) := by omega
  generalize min e l = r at hmin
  obtain ⟨he, hl, hr⟩ := hmin
  have happly := vecswap2_apply a (show i + r ≤ i + e + l - r by omega)
  refine ⟨fun k hk hkl => ?_, fun k hk hke => ?_, fun k hk => ?_⟩ <;> rw [happly]
  · split_ifs with hfirst hsecond
    · exact hQ _ (by omega) (by omega)
    · omega
    · exact hQ _ (by omega) (by omega)
  · split_ifs with hfirst hsecond
    · omega
    · exact hP _ (by omega) (by omega)
    · exact hP _ (by omega) (by omega)
  · rw [if_neg (by omega), if_neg (by omega)]

/-- A section in three parts: `l` elements with smaller keys and `g` with greater ones, and between
them those with the key `v`. -/
structure Parted (key : α → Int) (v : Int) (lo n l g : Nat) (b : Nat → α) : Prop where
  some_equal : l + g < n
  less : ∀ i, lo ≤ i → i < lo + l → key (b i) < v
  equal : ∀ i, lo + l ≤ i → i < lo + n - g → key (b i) = v
  greater : ∀ i, lo + n - g ≤ i → i < lo + n → v < key (b i)

theorem gather_spec (h : Scanning key v lo n a₀ s) (hmet : s.pb = s.pc + 1) :
    Rearranged lo n a₀ (gather lo n s) ∧
      s.pa - lo + (lo + n - s.pd - 1) = n - (s.pb - s.pa) - (s.pd - s.pc) ∧
        Parted key v lo n (s.pb - s.pa) (s.pd - s.pc) (gather lo n s) := by
  obtain ⟨hmoved, hpa, hab, hbc, hcd, hd, hleft, hless, hgreater, hright⟩ := h
  obtain ⟨e, he⟩ := Nat.exists_eq_add_of_lt hpa
  obtain ⟨l, hl⟩ := Nat.exists_eq_add_of_le hab
  obtain ⟨g, hg⟩ := Nat.exists_eq_add_of_le hcd
  obtain ⟨f, hf⟩ := Nat.exists_eq_add_of_lt hd
  have hpa' : s.pa - lo = e + 1 := by omega
  have hpb' : s.pb - s.pa = l := by omega
  have hpd' : s.pd - s.pc = g := by omega
  have hend : lo + n - s.pd - 1 = f := by omega
  have hpb : s.pb = lo + (e + 1) + l := by omega
  have htop : lo + n = s.pb + g + f := by omega
  obtain ⟨hless₁, hequal₁, hframe₁⟩ := vecswap2_blocks (P := fun x => key x = v)
    (Q := fun x => key x < v) (a := s.a) (i := lo) (e := e + 1) (l := l)
    (fun k hk hke => hleft k hk (by omega)) (fun k hk hkl => hless k (by omega) (by omega))
  have hframe : ∀ k, s.pb ≤ k →
      vecswap2 s.a lo (s.pb - min (e + 1) l) (min (e + 1) l) k = s.a k := fun k hk => by
    rw [hpb]
    exact hframe₁ k (Or.inr (by omega))
  obtain ⟨hequal₂, hgreater₂, hframe₂⟩ := vecswap2_blocks (P := fun x => v < key x)
    (Q := fun x => key x = v) (i := s.pb) (e := g) (l := f)
    (a := vecswap2 s.a lo (s.pb - min (e + 1) l) (min (e + 1) l))
    (fun k hk hkg => by rw [hframe k hk]; exact hgreater k (by omega) (by omega))
    (fun k hk hkf => by rw [hframe k (by omega)]; exact hright k (by omega) (by omega))
  unfold gather
  rw [hpa', hpb', hpd', hend, htop]
  rw [hpb] at hequal₂ hgreater₂ hframe₂ ⊢
  refine ⟨?_, by omega, by omega, fun k hk hkl => ?_, fun k hk hkg => ?_, fun k hk hkn => ?_⟩
  · exact (hmoved.trans (vecswap2_rearranged (by omega) (by omega))).trans
      (vecswap2_rearranged (by omega) (by omega))
  · rw [hframe₂ k (Or.inl (by omega))]
    exact hless₁ k hk hkl
  · by_cases hlow : k < lo + (e + 1) + l
    · rw [hframe₂ k (Or.inl hlow)]
      exact hequal₁ k hk hlow
    · exact hequal₂ k (by omega) (by omega)
  · exact hgreater₂ k (by omega) (by omega)

end

/-- The three parts of the section, of which the second has what was gathered at both ends. -/
theorem partition_spec (key : α → Int) (a : Nat → α) (lo : Nat) {n : Nat} (hn : 0 < n) :
    ∃ l g, (scanned key lo n a).pb - (scanned key lo n a).pa = l ∧
      (scanned key lo n a).pd - (scanned key lo n a).pc = g ∧
      (scanned key lo n a).pa - lo + (lo + n - (scanned key lo n a).pd - 1) = n - l - g ∧
      Rearranged lo n a (gather lo n (scanned key lo n a)) ∧
      Parted key (key (a lo)) lo n l g (gather lo n (scanned key lo n a)) := by
  have hstart := start_scanning key a lo hn
  obtain ⟨hs, hmet⟩ := scanLoop_spec (k := n) hstart (by dsimp only [start]; omega)
  obtain ⟨hmoved, hcount, hparted⟩ := gather_spec hs hmet
  exact ⟨_, _, rfl, rfl, hcount, hmoved, hparted⟩

/-! ### One key -/

theorem swap2_self (a : Nat → α) (i : Nat) : swap2 a i i = a := by
  funext k
  by_cases hk : k = i
  · rw [hk, swap2_left]
  · exact swap2_other a hk hk

theorem scanUp_same {key : α → Int} {v : Int} {a : Nat → α} {i pc pd k : Nat}
    (h : ∀ j, i ≤ j → j < i + k → key (a j) = v) :
    scanUp key v k ⟨a, i, i, pc, pd⟩ = ⟨a, i + k, i + k, pc, pd⟩ := by
  induction k generalizing i with
  | zero => rfl
  | succ k ih =>
      have heq : key (a i) - v = 0 := by
        rw [h i le_rfl (by omega), Int.sub_self]
      rw [scanUp, if_pos (Int.le_of_eq heq), if_pos heq]
      dsimp only
      rw [swap2_self, ih fun j hj hjk => h j (by omega) (by omega), Nat.add_assoc, Nat.add_comm 1]

/-- Elements that all have one key stay where they are. -/
theorem scanned_same {key : α → Int} {a : Nat → α} {lo n : Nat} (hn : 0 < n)
    (h : ∀ i, lo ≤ i → i < lo + n → key (a i) = key (a lo)) :
    scanned key lo n a = ⟨a, lo + n, lo + n, lo + n - 1, lo + n - 1⟩ := by
  obtain ⟨k, rfl⟩ := Nat.exists_eq_succ_of_ne_zero (Nat.ne_of_gt hn)
  have hrounds : (start a lo (k + 1)).pc + 1 - (start a lo (k + 1)).pb = k := by
    dsimp only [start]
    omega
  have hmet : lo + (k + 1) - 1 + 1 - (lo + (k + 1)) = 0 := by omega
  have hup : scanUp key (key (a lo)) k (start a lo (k + 1)) =
      ⟨a, lo + (k + 1), lo + (k + 1), lo + (k + 1) - 1, lo + (k + 1) - 1⟩ := by
    rw [start, scanUp_same fun j hj hjk => h j (by omega) (by omega), Nat.add_assoc,
      Nat.add_comm 1]
  have hscans : scans key (key (a lo)) (start a lo (k + 1)) =
      ⟨a, lo + (k + 1), lo + (k + 1), lo + (k + 1) - 1, lo + (k + 1) - 1⟩ := by
    rw [scans, hrounds, hup]
    exact congrArg (fun rounds => scanDown key (key (a lo)) rounds _) hmet
  rw [scanned, scanLoop, hscans]
  exact if_pos (by dsimp only; omega)

theorem gather_same (a : Nat → α) (lo n : Nat) :
    gather lo n ⟨a, lo + n, lo + n, lo + n - 1, lo + n - 1⟩ = a := by
  unfold gather
  dsimp only
  rw [Nat.sub_self, Nat.sub_self, Nat.min_zero, Nat.zero_min, vecswap2, vecswap2]

/-! ### The parts -/

section

variable {key : α → Int} {v : Int} {lo n l g : Nat} {b c : Nat → α} {r : α → α → Prop}

/-- Within a part, the elements may be put into another order. -/
theorem Parted.rearranged (h : Parted key v lo n l g b) {lo' n' : Nat}
    (hmoved : Rearranged lo' n' b c)
    (hpart : (lo ≤ lo' ∧ lo' + n' ≤ lo + l) ∨ (lo + l ≤ lo' ∧ lo' + n' ≤ lo + n - g) ∨
      (lo + n - g ≤ lo' ∧ lo' + n' ≤ lo + n)) : Parted key v lo n l g c := by
  have horigin : ∀ i, ∃ k, c i = b k ∧
      (k = i ∨ (lo' ≤ i ∧ i < lo' + n' ∧ lo' ≤ k ∧ k < lo' + n')) := by
    intro i
    by_cases hi : lo' ≤ i ∧ i < lo' + n'
    · obtain ⟨k, hk, heq⟩ := hmoved.exists_eq hi
      exact ⟨k, heq, Or.inr ⟨hi.1, hi.2, hk⟩⟩
    · exact ⟨i, hmoved.frame (by omega), Or.inl rfl⟩
  have hsome := h.some_equal
  refine ⟨hsome, fun i hlo hi => ?_, fun i hlo hi => ?_, fun i hlo hi => ?_⟩ <;>
    obtain ⟨k, heq, hk⟩ := horigin i <;> rw [heq]
  · exact h.less k (by omega) (by omega)
  · exact h.equal k (by omega) (by omega)
  · exact h.greater k (by omega) (by omega)

/-- Three parts in order make a section in order, if smaller keys stand in front. -/
theorem Parted.sorted (h : Parted key v lo n l g c) (hless : SortedOn r lo l c)
    (hequal : SortedOn r (lo + l) (n - l - g) c) (hgreater : SortedOn r (lo + n - g) g c)
    (hkey : ∀ i j, lo ≤ i → i < j → j < lo + n → key (c i) < key (c j) → r (c i) (c j)) :
    SortedOn r lo n c := by
  intro i j hi hij hj
  have hsome := h.some_equal
  by_cases hil : i < lo + l
  · by_cases hjl : j < lo + l
    · exact hless i j hi hij hjl
    · have hlt := h.less i hi hil
      refine hkey i j hi (by omega) hj ?_
      by_cases hjm : j < lo + n - g
      · rw [h.equal j (by omega) hjm]
        exact hlt
      · exact Int.lt_trans hlt (h.greater j (by omega) hj)
  · by_cases hjm : j < lo + n - g
    · exact hequal i j (by omega) hij (by omega)
    · by_cases him : i < lo + n - g
      · refine hkey i j hi (by omega) hj ?_
        rw [h.equal i (by omega) him]
        exact h.greater j (by omega) hj
      · exact hgreater i j (by omega) hij (by omega)

end

end ULib.ThreeWayPartition

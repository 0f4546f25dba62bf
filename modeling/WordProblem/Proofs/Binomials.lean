import WordProblem.Proofs.Selections

/-!
Which selections leave the doubles, and what the others give. The last product of a selection of
`n` and `k`, before it is divided, is `min k (n - k)` times the result. The doubles are left only
when that product is larger than all of them, although the roundings before it might have taken a
slightly smaller one there: for each number of rounds, no product lies that close to the largest
double.
-/
namespace WordProblem.Formula
open Binary64 Nat

/-- For one round, for two and so on: the largest whole number up to which the last product is no
    larger than the largest double. -/
def lastWithin : List ℕ :=
  List.replicate 20 largestExact ++ [
    3583651116911097, 808000806309810, 207792399804894, 59951550036038, 19138013174122,
    6680694094740, 2524844374159, 1024277890206, 442759064816, 202632209205, 97639381689,
    49295161259, 25965131398, 14215007592, 8061672448, 4722124702, 2849289045, 1766835518,
    1123558793, 731320129, 486389760, 330028226, 228136746, 160457700, 114693924, 83228573,
    61253920, 45681186, 34492711, 26349769, 20350948, 15880823, 12513682, 9951381, 7982658, 6456144,
    5262237, 4320783, 3572602, 2973605, 2490662, 2098675, 1778480, 1515333, 1297814, 1117014,
    965937, 839057, 731982, 641202, 563894, 497778, 441003, 392059, 349705, 312923, 280867, 252838,
    228250, 206615, 187520, 170619, 155619, 142269, 130359, 119705, 110153, 101568, 93836, 86857,
    80543, 74820, 69623, 64894, 60582, 56645, 53043, 49742, 46712, 43927, 41362, 38998, 36814,
    34794, 32924, 31190, 29580, 28083, 26690, 25392, 24180, 23049, 21991, 21001, 20073, 19203,
    18386, 17618, 16895, 16215, 15574, 14970, 14399, 13860, 13350, 12867, 12410, 11977, 11566,
    11176, 10805, 10453, 10118, 9799, 9496, 9206, 8931, 8667, 8416, 8176, 7946, 7727, 7517, 7316,
    7123, 6938, 6761, 6591, 6428, 6272, 6122, 5977, 5838, 5704, 5576, 5452, 5333, 5218, 5107, 5000,
    4897, 4797, 4701, 4608, 4519, 4432, 4349, 4268, 4189, 4113, 4040, 3969, 3900, 3833, 3769, 3706,
    3645, 3586, 3529, 3474, 3420, 3367, 3317, 3267, 3219, 3172, 3127, 3083, 3040, 2998, 2958, 2918,
    2880, 2842, 2805, 2770, 2735, 2701, 2668, 2636, 2605, 2574, 2545, 2515, 2487, 2459, 2432, 2406,
    2380, 2355, 2330, 2306, 2283, 2260, 2237, 2215, 2194, 2173, 2152, 2132, 2112, 2093, 2074, 2056,
    2038, 2020, 2003, 1986, 1969, 1953, 1937, 1921, 1906, 1891, 1876, 1862, 1848, 1834, 1820, 1807,
    1794, 1781, 1769, 1756, 1744, 1732, 1721, 1709, 1698, 1687, 1676, 1665, 1655, 1645, 1635, 1625,
    1615, 1606, 1596, 1587, 1578, 1569, 1560, 1552, 1543, 1535, 1527, 1519, 1511, 1503, 1495, 1488,
    1481, 1473, 1466, 1459, 1452, 1445, 1439, 1432, 1426, 1419, 1413, 1407, 1401, 1395, 1389, 1383,
    1378, 1372, 1366, 1361, 1356, 1350, 1345, 1340, 1335, 1330, 1325, 1320, 1316, 1311, 1307, 1302,
    1298, 1293, 1289, 1285, 1280, 1276, 1272, 1268, 1264, 1260, 1257, 1253, 1249, 1245, 1242, 1238,
    1235, 1231, 1228, 1224, 1221, 1218, 1215, 1211, 1208, 1205, 1202, 1199, 1196, 1193, 1190, 1188,
    1185, 1182, 1179, 1177, 1174, 1172, 1169, 1166, 1164, 1161, 1159, 1157, 1154, 1152, 1150, 1147,
    1145, 1143, 1141, 1139, 1137, 1135, 1133, 1131, 1129, 1127, 1125, 1123, 1121, 1119, 1117, 1116,
    1114, 1112, 1110, 1109, 1107, 1105, 1104, 1102, 1100, 1099, 1097, 1096, 1094, 1093, 1092, 1090,
    1089, 1087, 1086, 1085, 1083, 1082, 1081, 1079, 1078, 1077, 1076, 1075, 1073, 1072, 1071, 1070,
    1069, 1068, 1067, 1066, 1065, 1064, 1063, 1062, 1061, 1060, 1059, 1058, 1057, 1056, 1055, 1054,
    1053, 1053, 1052, 1051, 1050, 1049, 1049, 1048, 1047, 1046, 1046, 1045, 1044, 1044, 1043, 1042,
    1042, 1041, 1040, 1040, 1039, 1039, 1038, 1037, 1037, 1036, 1036, 1035, 1035, 1034, 1034, 1033,
    1033, 1032, 1032, 1031, 1031, 1031, 1030, 1030, 1029, 1029, 1029, 1028, 1028, 1028, 1027, 1027,
    1027, 1026, 1026, 1026, 1025, 1025, 1025, 1025, 1024, 1024, 1024, 1024, 1023, 1023, 1023, 1023,
    1023, 1022, 1022, 1022, 1022, 1022, 1022, 1021, 1021, 1021, 1021, 1021, 1021, 1021, 1021, 1020,
    1020, 1020, 1020, 1020, 1020, 1020, 1020, 1020, 1020, 1020, 1020, 1020, 1020, 1020, 1021]

/-- With `s + 1` rounds, the products up to `n` stay below the largest double whatever is rounded,
    and the products beyond `n` are larger without any rounding. -/
def Settles (s n : ℕ) : Prop :=
  (n < 2 * (s + 1) ∨
    (n - s) * n.descFactorial s * (2 ^ 53 + 1) ^ (2 * s) ≤ largest * s ! * (2 ^ 53) ^ (2 * s)) ∧
  (n = largestExact ∨ largest * s ! < (n + 1) * n.descFactorial s)

instance (s n : ℕ) : Decidable (Settles s n) := inferInstanceAs (Decidable (_ ∧ _))

theorem lastWithin_settles : ∀ entry ∈ lastWithin.zipIdx, Settles entry.2 entry.1 := by
  decide +kernel

theorem exists_settles {s : ℕ} (few : s < 511) : ∃ n, Settles s n := by
  have length : lastWithin.length = 511 := by decide +kernel
  have found : s < lastWithin.length := few.trans_eq length.symm
  refine ⟨lastWithin[s], lastWithin_settles (lastWithin[s], s) ?_⟩
  rw [List.mk_mem_zipIdx_iff_getElem?, List.getElem?_eq_getElem found]

section
variable {s n r base : ℕ}

theorem last_product (s n : ℕ) :
    s ! * ((s + 1) * n.choose (s + 1)) = n.descFactorial (s + 1) := by
  rw [Nat.descFactorial_eq_factorial_mul_choose, Nat.factorial_succ]
  ring

theorem largest_lt_of_settles {m : ℕ} (settled : Settles s m) (room : 2 * (s + 1) ≤ n)
    (range : n ≤ largestExact)
    (rounded : (largest : ℚ) < ((s + 1) * n.choose (s + 1) : ℕ) * (1 + roundoff) ^ (2 * s)) :
    largest < (s + 1) * n.choose (s + 1) := by
  obtain ⟨within, beyond⟩ := settled
  have positive : 0 < s ! := Nat.factorial_pos s
  -- both products are compared as falling factorials, without the common factor `s !`
  rcases Nat.lt_or_ge m n with above | below
  · refine Nat.lt_of_mul_lt_mul_left (a := s !) ?_
    calc s ! * largest = largest * s ! := Nat.mul_comm _ _
      _ < (m + 1) * m.descFactorial s := beyond.resolve_left (by omega)
      _ = (m + 1).descFactorial (s + 1) := (Nat.succ_descFactorial_succ m s).symm
      _ ≤ n.descFactorial (s + 1) := Nat.descFactorial_le (s + 1) above
      _ = s ! * ((s + 1) * n.choose (s + 1)) := (last_product s n).symm
  · have unrounded : 1 + roundoff = ((2 ^ 53 + 1 : ℕ) : ℚ) / (2 ^ 53 : ℕ) := by
      norm_num [roundoff]
    rw [unrounded, lt_mul_ratio_iff (Nat.two_pow_pos 53)] at rounded
    have fits := within.resolve_left (by omega)
    rw [← Nat.descFactorial_succ] at fits
    have larger : s ! * (largest * (2 ^ 53) ^ (2 * s)) <
        s ! * ((s + 1) * n.choose (s + 1) * (2 ^ 53 + 1) ^ (2 * s)) :=
      Nat.mul_lt_mul_of_pos_left rounded positive
    have smaller : s ! * ((s + 1) * n.choose (s + 1) * (2 ^ 53 + 1) ^ (2 * s)) ≤
        largest * s ! * (2 ^ 53) ^ (2 * s) := by
      rw [← Nat.mul_assoc, last_product]
      exact (Nat.mul_le_mul_right _ (Nat.descFactorial_le (s + 1) below)).trans fits
    rw [← Nat.mul_assoc, Nat.mul_comm (s !)] at larger
    exact absurd (larger.trans_le smaller) (lt_irrefl _)

theorem largest_lt_of_many_rounds (many : 512 ≤ r) (half : 2 * r ≤ n) :
    largest < r * n.choose r := by
  have bits : largest ≠ 0 ∧ largest.log2 = 1023 := by
    rw [largest]
    decide +kernel
  calc largest < 2 ^ (2 * r) := (Nat.log2_lt bits.1).mp (by omega)
    _ = 4 ^ r := Nat.pow_mul 2 2 r
    _ ≤ r * r.centralBinom := (Nat.four_pow_lt_mul_centralBinom r (by omega)).le
    _ ≤ r * n.choose r := Nat.mul_le_mul_left r (Nat.choose_le_choose r half)

theorem largest_lt_of_rounds_error (range : base + r ≤ largestExact) (half : r ≤ base)
    {fault : Refusal} (stopped : Selection.rounds base ⟨some 1, 1.0⟩ 1 r = .error fault) :
    largest < r * (base + r).choose r := by
  obtain ⟨positive, rounded⟩ := rounds_error (range.trans_lt largestExact_lt) stopped
  rcases Nat.lt_or_ge r 512 with few | many
  · obtain ⟨s, rfl⟩ : ∃ s, r = s + 1 := ⟨r - 1, by omega⟩
    obtain ⟨m, settled⟩ := exists_settles (s := s) (by omega)
    rw [Nat.add_sub_cancel] at rounded
    exact largest_lt_of_settles settled (by omega) range rounded
  · exact largest_lt_of_many_rounds many (by omega)

end

section
variable {base r n k : ℕ} {x y : Float}

theorem choose_of_exactInt? (hx : exactInt? x = some (n : ℤ)) (hy : exactInt? y = some (k : ℤ))
    (enough : k ≤ n) :
    choose x y = (Selection.rounds (n - min k (n - k)) ⟨some 1, 1.0⟩ 1 (min k (n - k))).map
      Selection.value := by
  simp only [choose, (count_of_exactInt? hx).1, (count_of_exactInt? hy).1, bind, Except.bind,
    not_lt.mpr enough, ↓reduceIte]
  cases Selection.rounds (n - min k (n - k)) ⟨some 1, 1.0⟩ 1 (min k (n - k)) <;> rfl

theorem choose_min (enough : k ≤ n) : n.choose (min k (n - k)) = n.choose k := by
  rcases min_choice k (n - k) with same | same <;> rw [same]
  exact Nat.choose_symm enough

/-- Where the result is in the exact range, so are the coefficients before it, and the doubles
    beside them stay far from the largest. -/
theorem exact_of_small (range : base + r ≤ largestExact) (half : r ≤ base)
    (small : (base + r).choose r ≤ largestExact) : Selection.Exact base r := by
  have fits : ∀ i < r, (base + i).choose i * (base + (i + 1)) < 1 <<< 128 :=
    fun i earlier => product_fits small range earlier
  refine ⟨fun i most => ?_, fits, fun i _ => ?_⟩
  · refine ⟨.after base i, ?_, after_exact fun j less => fits j (by omega)⟩
    rcases selection_cases base i with ⟨run, -⟩ | ⟨stopped, -⟩
    · exact run
    · have large := largest_lt_of_rounds_error (by omega) (by omega) stopped
      have product : i * (base + i).choose i ≤ largest :=
        largestExact_mul_le (by omega) ((choose_mono base most).trans small)
      omega
  · rw [choose_step]
    exact Nat.dvd_mul_left (i + 1) _

theorem value_of_exact {s : Selection} {m : ℕ} (exact_value : s.exact = some m)
    (small : m ≤ largestExact) : s.value = Float.ofNat m := by
  simp only [Selection.value, exact_value, small, ↓reduceIte]

theorem choose_of_fewer (hx : exactInt? x = some (n : ℤ)) (hy : exactInt? y = some (k : ℤ))
    (fewer : n < k) : choose x y = .ok 0.0 := by
  simp only [choose, (count_of_exactInt? hx).1, (count_of_exactInt? hy).1, bind, Except.bind, fewer,
    ↓reduceIte]

theorem choose_of_small (hx : exactInt? x = some (n : ℤ)) (hy : exactInt? y = some (k : ℤ))
    (enough : k ≤ n) (small : n.choose k ≤ largestExact) :
    choose x y = .ok (Float.ofNat (n.choose k)) ∧
      Selection.Exact (n - min k (n - k)) (min k (n - k)) := by
  have range := (count_of_exactInt? hx).2
  have whole : n - min k (n - k) + min k (n - k) = n := by omega
  have steps : Selection.Exact (n - min k (n - k)) (min k (n - k)) := by
    apply exact_of_small (by omega) (by omega)
    rwa [whole, choose_min enough]
  refine ⟨?_, steps⟩
  obtain ⟨s, run, value⟩ := steps.value _ le_rfl
  rw [whole, choose_min enough] at value
  rw [choose_of_exactInt? hx hy enough, run, Except.map, value_of_exact value small]

/-- A binomial coefficient in the exact range is returned exactly, and every round on the way is
    exact. Choosing `n - k` is the same as choosing `k`, and the words never wrap. -/
theorem choose_exact (hx : exactInt? x = some (n : ℤ)) (hy : exactInt? y = some (k : ℤ)) :
    (n.choose k ≤ largestExact →
      choose x y = .ok (Float.ofNat (n.choose k)) ∧
      exactInt? (Float.ofNat (n.choose k)) = some (n.choose k : ℤ) ∧
      (k ≤ n → Selection.Exact (n - min k (n - k)) (min k (n - k)))) ∧
    (k ≤ n →
      (∀ z, exactInt? z = some ((n - k : ℕ) : ℤ) → choose x z = choose x y) ∧
      ∀ a b : UInt64, a.toNat = n → b.toNat = k → Selection.Words a b) := by
  constructor
  · intro small
    rcases Nat.lt_or_ge n k with fewer | enough
    · have nothing : (0.0 : Float) = Float.ofNat 0 := by decide +kernel
      rw [Nat.choose_eq_zero_of_lt fewer] at small ⊢
      rw [choose_of_fewer hx hy fewer, nothing]
      exact ⟨rfl, exactInt?_ofNat small, fun enough => by omega⟩
    · obtain ⟨value, steps⟩ := choose_of_small hx hy enough small
      exact ⟨value, exactInt?_ofNat small, fun _ => steps⟩
  · intro enough
    constructor
    · intro z hz
      have others : min (n - k) (n - (n - k)) = min k (n - k) := by omega
      rw [choose_of_exactInt? hx hz (Nat.sub_le n k), choose_of_exactInt? hx hy enough, others]
    · rintro a b rfl rfl
      exact words_of_order (UInt64.le_iff_toNat_le.mpr enough) (count_of_exactInt? hx).2

theorem choose_three_of_ten :
    exactInt? 10.0 = some (10 : ℕ) ∧ exactInt? 3.0 = some (3 : ℕ) ∧
      exactInt? 7.0 = some (7 : ℕ) ∧ Nat.choose 10 3 ≤ largestExact ∧
      choose 10.0 3.0 = .ok (Float.ofNat 120) ∧ choose 10.0 7.0 = choose 10.0 3.0 := by
  have hx : exactInt? 10.0 = some (10 : ℕ) := by decide +kernel
  have hy : exactInt? 3.0 = some (3 : ℕ) := by decide +kernel
  have hz : exactInt? 7.0 = some (7 : ℕ) := by decide +kernel
  have small : Nat.choose 10 3 ≤ largestExact := by decide
  obtain ⟨value, mirrored⟩ := choose_exact hx hy
  exact ⟨hx, hy, hz, small, (value small).1, (mirrored (by norm_num)).1 7.0 hz⟩

/-- A selection is refused only as non-finite, and only when its last product, before it is
    divided, is larger than every double. -/
theorem choose_error_beyond (hx : exactInt? x = some (n : ℤ)) (hy : exactInt? y = some (k : ℤ))
    (enough : k ≤ n) {fault : Refusal} (refused : choose x y = .error fault) :
    fault = .nonFinite ∧ largest < min k (n - k) * n.choose k := by
  have range := (count_of_exactInt? hx).2
  have whole : n - min k (n - k) + min k (n - k) = n := by omega
  rw [choose_of_exactInt? hx hy enough] at refused
  rcases selection_cases (n - min k (n - k)) (min k (n - k)) with ⟨run, -⟩ | ⟨stopped, -⟩
  · rw [run] at refused
    cases refused
  · have large := largest_lt_of_rounds_error (by omega) (by omega) stopped
    rw [whole, choose_min enough] at large
    rw [stopped] at refused
    exact ⟨(Except.error.inj refused).symm, large⟩

theorem choose_of_wide_selection :
    choose 4000000000000000.0 21.0 = .error .nonFinite := by
  decide +kernel

theorem choose_error_beyond_of_wide_selection :
    exactInt? 4000000000000000.0 = some (4000000000000000 : ℕ) ∧
      exactInt? 21.0 = some (21 : ℕ) ∧ choose 4000000000000000.0 21.0 = .error .nonFinite ∧
      largest < min 21 (4000000000000000 - 21) * Nat.choose 4000000000000000 21 := by
  have hx : exactInt? 4000000000000000.0 = some (4000000000000000 : ℕ) := by decide +kernel
  have hy : exactInt? 21.0 = some (21 : ℕ) := by decide +kernel
  have refused := choose_of_wide_selection
  exact ⟨hx, hy, refused, (choose_error_beyond hx hy (by norm_num) refused).2⟩

theorem choose_refuses_within_doubles :
    exactInt? 4000000000000000.0 = some (4000000000000000 : ℕ) ∧
      exactInt? 21.0 = some (21 : ℕ) ∧ choose 4000000000000000.0 21.0 = .error .nonFinite ∧
      Nat.choose 4000000000000000 21 ≤ largest := by
  refine ⟨by decide +kernel, by decide +kernel, choose_of_wide_selection, ?_⟩
  rw [Nat.choose_eq_descFactorial_div_factorial, largest]
  decide +kernel

end

end WordProblem.Formula

import PysdkModel.Protos.FieldMaskJson

namespace Protos

namespace FieldMaskJson

variable {u : CharCase} {c d : CodePoint} {path p s t : Text} {ps ss : List Text}

theorem isAscii_cons_iff : IsAscii (c :: s) ↔ c.val < 0x80 ∧ IsAscii s :=
  List.forall_mem_cons

section Characters

theorem snakeOf_of_not_isUpper (h : ¬u.isUpper c) : snakeOf u c = [c] :=
  if_neg h

theorem not_isUpper_underscore : ¬u.isUpper underscore := by
  rw [u.isUpper_ascii _ (by decide)]
  decide

theorem snakeOf_upper (hc : c.val < 0x80) (hl : u.isLower c) :
    ∃ d : CodePoint, u.upper c = [d] ∧ d.val < 0x80 ∧ d ≠ underscore ∧ snakeOf u d = [underscore, c] := by
  obtain ⟨h₁, h₂⟩ := (u.isLower_ascii c hc).mp hl
  have hd : (CodePoint.ofNat (c.val - 0x20)).val = c.val - 0x20 := CodePoint.val_ofNat (by omega)
  have hu : u.isUpper (.ofNat (c.val - 0x20)) := (u.isUpper_ascii _ (by omega)).mpr (by omega)
  refine ⟨.ofNat (c.val - 0x20), u.upper_ascii c h₁ h₂, by omega, ?_, ?_⟩
  · rintro h
    exact not_isUpper_underscore (h ▸ hu)
  · rw [snakeOf, if_pos hu, u.lower_ascii _ (by omega) (by omega), hd, Nat.sub_add_cancel (by omega),
      CodePoint.ofNat_val]

theorem snakeOf_of_isUpper (hd : d.val < 0x80) (hu : u.isUpper d) :
    ∃ c : CodePoint, snakeOf u d = [underscore, c] ∧ c.val < 0x80 ∧ u.isLower c ∧ ¬u.isUpper c ∧ c ≠ underscore ∧
      u.upper c = [d] := by
  obtain ⟨h₁, h₂⟩ := (u.isUpper_ascii d hd).mp hu
  have hc : (CodePoint.ofNat (d.val + 0x20)).val = d.val + 0x20 := CodePoint.val_ofNat (by omega)
  refine ⟨.ofNat (d.val + 0x20), ?_, by omega, ?_, ?_, ?_, ?_⟩
  · rw [snakeOf, if_pos hu, u.lower_ascii d h₁ h₂]
  · exact (u.isLower_ascii _ (by omega)).mpr (by omega)
  · rw [u.isUpper_ascii _ (by omega)]
    omega
  · intro h
    have : d.val + 0x20 = 0x5F := hc.symm.trans <| congrArg Fin.val h
    omega
  · rw [u.upper_ascii _ (by omega) (by omega), hc, Nat.add_sub_cancel, CodePoint.ofNat_val]

theorem comma_mem_snakeOf_iff (hd : d.val < 0x80) : comma ∈ snakeOf u d ↔ d = comma := by
  by_cases hu : u.isUpper d
  · obtain ⟨h₁, h₂⟩ := (u.isUpper_ascii d hd).mp hu
    obtain ⟨c, hs, hc, hl, -⟩ := snakeOf_of_isUpper hd hu
    have := (u.isLower_ascii c hc).mp hl
    rw [hs]
    refine iff_of_false ?_ ?_
    · simp only [List.mem_cons, List.not_mem_nil, or_false, not_or]
      refine ⟨by decide, ?_⟩
      rintro rfl
      simp only [comma] at this
      omega
    · rintro rfl
      simp only [comma] at h₁
      omega
  · rw [snakeOf_of_not_isUpper hu, List.mem_singleton, eq_comm]

end Characters

section Paths

theorem comma_mem_flatMap_iff (hs : IsAscii s) : comma ∈ s.flatMap (snakeOf u) ↔ comma ∈ s := by
  rw [List.mem_flatMap]
  constructor
  · rintro ⟨d, hd, hc⟩
    rwa [← (comma_mem_snakeOf_iff <| hs d hd).mp hc]
  · exact fun h => ⟨comma, h, (comma_mem_snakeOf_iff <| hs _ h).mpr rfl⟩

theorem camelToSnake_eq_ok_iff : camelToSnake u s = .ok p ↔ underscore ∉ s ∧ s.flatMap (snakeOf u) = p := by
  unfold camelToSnake
  split
  case isTrue h => exact ⟨nofun, fun hn => absurd h hn.left⟩
  case isFalse h => exact ⟨fun he => ⟨h, Except.ok.inj he⟩, fun he => congrArg Except.ok he.right⟩

theorem toCamel_cons_eq_ok_iff {capitalize : Bool} : toCamel u path capitalize (c :: p) = .ok s ↔ ¬u.isUpper c ∧
    (c = underscore ∧ capitalize = false ∧ toCamel u path true p = .ok s ∨
     c ≠ underscore ∧ capitalize = true ∧ u.isLower c ∧ (∃ r, toCamel u path false p = .ok r ∧ u.upper c ++ r = s) ∨
     c ≠ underscore ∧ capitalize = false ∧ ∃ r, toCamel u path false p = .ok r ∧ c :: r = s) := by
  have hb (f : Text → Text) : (toCamel u path false p >>= fun r => (return f r : Except MaskError Text)) = .ok s ↔
      ∃ r, toCamel u path false p = .ok r ∧ f r = s := by
    rw [Except.bind_eq_ok_iff]
    exact exists_congr fun r => and_congr_right fun _ => ⟨Except.ok.inj, congrArg Except.ok⟩
  have ht (e : MaskError) : (throw e : Except MaskError Text) = .ok s ↔ False := ⟨nofun, False.elim⟩
  rw [toCamel]
  split_ifs <;> simp_all

theorem flatMap_of_toCamel {capitalize : Bool} (hp : IsAscii p) (h : toCamel u path capitalize p = .ok s) :
    IsAscii s ∧ underscore ∉ s ∧ s.flatMap (snakeOf u) = if capitalize then underscore :: p else p := by
  induction p generalizing capitalize s
  case nil =>
    cases capitalize <;> cases h
    exact ⟨by simp [IsAscii], List.not_mem_nil, rfl⟩
  case cons c p ih =>
    obtain ⟨hc, ha⟩ := isAscii_cons_iff.mp hp
    obtain ⟨hu, ⟨rfl, rfl, ht⟩ | ⟨hn, rfl, hl, r, ht, rfl⟩ | ⟨hn, rfl, r, ht, rfl⟩⟩ := toCamel_cons_eq_ok_iff.mp h
    · exact ih ha ht
    · obtain ⟨hr, hru, hrs⟩ := ih ha ht
      obtain ⟨d, hd, hda, hdu, hds⟩ := snakeOf_upper hc hl
      rw [hd]
      refine ⟨isAscii_cons_iff.mpr ⟨hda, hr⟩, List.not_mem_cons_of_ne_of_not_mem hdu.symm hru, ?_⟩
      rw [List.singleton_append, List.flatMap_cons, hds, hrs]
      rfl
    · obtain ⟨hr, hru, hrs⟩ := ih ha ht
      refine ⟨isAscii_cons_iff.mpr ⟨hc, hr⟩, List.not_mem_cons_of_ne_of_not_mem (Ne.symm hn) hru, ?_⟩
      rw [List.flatMap_cons, snakeOf_of_not_isUpper hu, hrs]
      rfl

theorem toCamel_flatMap (hs : IsAscii s) (hu : underscore ∉ s) :
    toCamel u path false (s.flatMap (snakeOf u)) = .ok s := by
  induction s
  case nil => rfl
  case cons d s ih =>
    obtain ⟨hd, hs⟩ := isAscii_cons_iff.mp hs
    obtain ⟨hdu, hu⟩ := not_or.mp <| mt List.mem_cons.mpr hu
    have ih := ih hs hu
    rw [List.flatMap_cons]
    by_cases hc : u.isUpper d
    · obtain ⟨c, hds, hca, hl, hcu, hcn, hup⟩ := snakeOf_of_isUpper hd hc
      rw [hds]
      refine toCamel_cons_eq_ok_iff.mpr ⟨not_isUpper_underscore, .inl ⟨rfl, rfl, ?_⟩⟩
      exact toCamel_cons_eq_ok_iff.mpr ⟨hcu, .inr <| .inl ⟨hcn, rfl, hl, s, ih, by rw [hup]; rfl⟩⟩
    · rw [snakeOf_of_not_isUpper hc]
      exact toCamel_cons_eq_ok_iff.mpr ⟨hc, .inr <| .inr ⟨Ne.symm hdu, rfl, s, ih, rfl⟩⟩

theorem snakeToCamel_eq_ok_iff (hp : IsAscii p) : snakeToCamel u p = .ok s ↔ IsAscii s ∧ camelToSnake u s = .ok p := by
  rw [camelToSnake_eq_ok_iff]
  constructor
  · exact flatMap_of_toCamel hp
  · rintro ⟨hs, hu, rfl⟩
    exact toCamel_flatMap hs hu

end Paths

section Lists

theorem mapM_snakeToCamel_iff (hp : ∀ p ∈ ps, IsAscii p) : ps.mapM (snakeToCamel u) = .ok ss ↔
    (∀ s ∈ ss, IsAscii s) ∧ ss.mapM (camelToSnake u) = .ok ps := by
  simp only [Except.mapM_eq_ok_iff]
  induction ps generalizing ss
  case nil =>
    rw [List.forall₂_nil_left_iff, List.forall₂_nil_right_iff]
    exact ⟨fun h => ⟨by simp [h], h⟩, And.right⟩
  case cons p ps ih =>
    obtain ⟨hp, hps⟩ := List.forall_mem_cons.mp hp
    rw [List.forall₂_cons_left_iff, List.forall₂_cons_right_iff]
    constructor
    · rintro ⟨s, ss, hs, hss, rfl⟩
      obtain ⟨ha, hs⟩ := (snakeToCamel_eq_ok_iff hp).mp hs
      obtain ⟨has, hss⟩ := (ih hps).mp hss
      exact ⟨List.forall_mem_cons.mpr ⟨ha, has⟩, s, ss, hs, hss, rfl⟩
    · rintro ⟨ha, s, ss, hs, hss, rfl⟩
      obtain ⟨ha, has⟩ := List.forall_mem_cons.mp ha
      exact ⟨s, ss, (snakeToCamel_eq_ok_iff hp).mpr ⟨ha, hs⟩, (ih hps).mpr ⟨has, hss⟩, rfl⟩

theorem encode_eq_ok_iff :
    encode u ps = .ok t ↔ ∃ ss, ps.mapM (snakeToCamel u) = .ok ss ∧ [comma].intercalate ss = t := by
  rw [encode, Except.bind_eq_ok_iff]
  exact exists_congr fun ss => and_congr_right fun _ => ⟨Except.ok.inj, congrArg Except.ok⟩

theorem comma_mem_iff_of_camelToSnake (hs : IsAscii s) (h : camelToSnake u s = .ok p) : comma ∈ p ↔ comma ∈ s := by
  rw [← (camelToSnake_eq_ok_iff.mp h).right, comma_mem_flatMap_iff hs]

theorem intercalate_eq_nil_iff : [comma].intercalate ss = [] ↔ ss = [] ∨ ss = [[]] := by
  cases ss
  case nil => simp [List.intercalate]
  case cons s ss => cases ss <;> simp [List.intercalate]

theorem isAscii_of_camelToSnake (hs : IsAscii s) (h : camelToSnake u s = .ok p) : IsAscii p := by
  rw [← (camelToSnake_eq_ok_iff.mp h).right]
  intro c hc
  obtain ⟨d, hd, hc⟩ := List.mem_flatMap.mp hc
  by_cases hu : u.isUpper d
  · obtain ⟨c', hs', hc', -⟩ := snakeOf_of_isUpper (hs d hd) hu
    rw [hs'] at hc
    obtain rfl | hc := List.mem_cons.mp hc
    · decide
    · rwa [List.mem_singleton.mp hc]
  · rw [snakeOf_of_not_isUpper hu, List.mem_singleton] at hc
    exact hc ▸ hs d hd

theorem eq_nil_of_camelToSnake (h : camelToSnake u s = .ok []) : s = [] := by
  cases s
  case nil => rfl
  case cons d s =>
    have he := (camelToSnake_eq_ok_iff.mp h).right
    rw [List.flatMap_cons, List.append_eq_nil_iff, snakeOf] at he
    split at he <;> cases he.left

-- The text of the paths is read as the paths unless it is read as other ones: a comma in a path separates two, and the
-- text of a single empty path is that of no path.
theorem parse_intercalate_iff (ha : ∀ s ∈ ss, IsAscii s) (h : ss.mapM (camelToSnake u) = .ok ps) :
    parse u ([comma].intercalate ss) = .ok ps ↔ ps ≠ [[]] ∧ ∀ p ∈ ps, comma ∉ p := by
  have hf := Except.mapM_eq_ok_iff.mp h
  unfold parse
  split
  case isTrue ht =>
    obtain rfl | rfl := intercalate_eq_nil_iff.mp ht
    · cases List.forall₂_nil_left_iff.mp hf
      exact iff_of_true rfl (by simp)
    · obtain ⟨p, ps, hp, hps, rfl⟩ := List.forall₂_cons_left_iff.mp hf
      cases List.forall₂_nil_left_iff.mp hps
      cases hp
      exact iff_of_false nofun (by simp)
  case isFalse ht =>
    constructor
    · intro hp
      refine ⟨?_, fun p hp' => ?_⟩
      · rintro rfl
        obtain ⟨s, ss, hs, hss, rfl⟩ := List.forall₂_cons_right_iff.mp hf
        cases List.forall₂_nil_right_iff.mp hss
        exact ht <| intercalate_eq_nil_iff.mpr <| .inr <| congrArg (fun s => [s]) <| eq_nil_of_camelToSnake hs
      · obtain ⟨s, hs, hsp⟩ := (Except.mapM_eq_ok_iff.mp hp).exists_left hp'
        have hsa : IsAscii s := by
          intro c hc
          obtain rfl | ⟨part, hpart, hc⟩ := List.eq_or_mem_of_mem_intercalate <| List.mem_of_mem_splitOn hs hc
          · decide
          · exact ha part hpart c hc
        exact mt (comma_mem_iff_of_camelToSnake hsa hsp).mp <| List.nmem_of_mem_splitOn hs
    · rintro ⟨-, hc⟩
      rw [List.splitOn_intercalate comma ?_ ?_]
      · exact h
      · intro s hs
        obtain ⟨p, hp, hsp⟩ := hf.exists_right hs
        exact mt (comma_mem_iff_of_camelToSnake (ha s hs) hsp).mpr <| hc p hp
      · rintro rfl
        exact ht rfl

theorem encode_of_parse (ht : IsAscii t) (h : parse u t = .ok ps) : encode u ps = .ok t := by
  unfold parse at h
  split at h
  case isTrue hn =>
    cases h
    exact congrArg Except.ok hn.symm
  have hs : ∀ s ∈ t.splitOn comma, IsAscii s := fun s hs c hc => ht c <| List.mem_of_mem_splitOn hs hc
  have hp : ∀ p ∈ ps, IsAscii p := by
    intro p hp
    obtain ⟨s, hst, hsp⟩ := (Except.mapM_eq_ok_iff.mp h).exists_left hp
    exact isAscii_of_camelToSnake (hs s hst) hsp
  exact encode_eq_ok_iff.mpr ⟨_, (mapM_snakeToCamel_iff hp).mpr ⟨hs, h⟩, List.intercalate_splitOn comma⟩

end Lists

theorem faithful_iff (hp : ∀ p ∈ ps, IsAscii p) (he : encode u ps = .ok s) (ht : IsAscii t) :
    Faithful u ps s t ↔ ps ≠ [[]] ∧ ∀ p ∈ ps, comma ∉ p := by
  obtain ⟨ss, hm, rfl⟩ := encode_eq_ok_iff.mp he
  obtain ⟨ha, hss⟩ := (mapM_snakeToCamel_iff hp).mp hm
  rw [← parse_intercalate_iff ha hss]
  refine ⟨Faithful.parsed, fun h => ⟨h, ?_⟩⟩
  intro qs r hq hr
  exact Except.ok.inj <| hr.symm.trans <| encode_of_parse ht hq

theorem nestedPath_faithful : encode .ascii [.ofString "foo_bar.baz", .ofString "x"] = .ok (.ofString "fooBar.baz,x") ∧
    Faithful .ascii [.ofString "foo_bar.baz", .ofString "x"] (.ofString "fooBar.baz,x") (.ofString "fooBar.baz,x") :=
  ⟨rfl, (faithful_iff (by decide) rfl (by decide)).mpr (by decide)⟩

theorem commaPath_split : encode .ascii [.ofString "a,b"] = .ok (.ofString "a,b") ∧
    parse .ascii (.ofString "a,b") = .ok [.ofString "a", .ofString "b"] ∧
    encode .ascii [[]] = .ok [] ∧ parse .ascii [] = .ok [] ∧
    (∀ t, ¬Faithful .ascii [.ofString "a,b"] (.ofString "a,b") t) ∧ ∀ t, ¬Faithful .ascii [[]] [] t := by
  refine ⟨rfl, rfl, rfl, rfl, fun t h => ?_, fun t h => ?_⟩
  · exact absurd (h.parsed.symm.trans (show _ = Except.ok [.ofString "a", .ofString "b"] from rfl)) (by decide)
  · exact absurd (h.parsed.symm.trans (show _ = Except.ok [] from rfl)) (by decide)

end FieldMaskJson

end Protos

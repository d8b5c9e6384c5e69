import ULib.ByteMemory

/-!
`UIPAddress::convertToAddressFamily` of `net/ipaddress.cpp`, with IPv6: one
union of 16 bytes is edited in place.
-/

namespace ULib.AddressFamily

open ULib.ByteMemory

def afInet : Nat := 2

def afInet6 : Nat := 10

/-- The bytes of the union are at 0, ..., 15. -/
structure UIPAddress where
  pcAddress : Mem
  iAddressLength : Nat
  iAddressType : Nat
  hostNameUnresolved : Bool
  strAddressUnresolved : Bool

/-- `IN6_IS_ADDR_V4MAPPED` -/
def isV4Mapped (p : Mem) : Prop := read p 0 12 = List.replicate 10 0 ++ [255, 255]

instance (p : Mem) : Decidable (isV4Mapped p) := inferInstanceAs (Decidable (_ = _))

/-- The address is copied from `pcNewAddress` to the start of the union. -/
def setAddress (x : UIPAddress) (pcNewAddress : List UInt8) : UIPAddress :=
  { x with iAddressLength := pcNewAddress.length, pcAddress := write x.pcAddress 0 pcNewAddress }

/-- The three writes of the conversion to IPv6, in their order. -/
def mapAddress (p : Mem) : Mem :=
  let p := fill p 0 10 0
  let p := fill p 10 2 0xff
  write p 12 (read p 0 4)

def convertToAddressFamily (x : UIPAddress) (iNewAddressFamily : Nat) : UIPAddress :=
  if x.iAddressType ≠ iNewAddressFamily then
    let x :=
      if iNewAddressFamily = afInet then
        if isV4Mapped x.pcAddress then setAddress x (read x.pcAddress 12 4) else x
      else if iNewAddressFamily = afInet6 then
        { x with iAddressLength := 16, pcAddress := mapAddress x.pcAddress }
      else x
    { x with iAddressType := iNewAddressFamily
             hostNameUnresolved := true, strAddressUnresolved := true }
  else x

/-! ### What becomes of an address -/

/-- The address as a value of the type IPv6, with the IPv4 address in its last bytes. -/
def Mapped (x : UIPAddress) : Prop :=
  let y := convertToAddressFamily x afInet6
  y.iAddressType = afInet6 ∧ y.iAddressLength = 16 ∧
    read y.pcAddress 0 16 = List.replicate 10 0 ++ [255, 255] ++ read x.pcAddress 0 4

/-- The address and its length come back. -/
def Restored (x : UIPAddress) : Prop :=
  let y := convertToAddressFamily (convertToAddressFamily x afInet6) afInet
  y.iAddressType = x.iAddressType ∧ y.iAddressLength = x.iAddressLength ∧
    read y.pcAddress 0 4 = read x.pcAddress 0 4

def Unchanged (x : UIPAddress) : Prop :=
  let y := convertToAddressFamily x afInet
  y.iAddressType = x.iAddressType ∧ y.iAddressLength = x.iAddressLength ∧
    read y.pcAddress 0 16 = read x.pcAddress 0 16

/-- The address is overwritten before it is copied. -/
theorem read_mapAddress (p : Mem) :
    read (mapAddress p) 0 16 = List.replicate 10 0 ++ [255, 255] ++ List.replicate 4 0 := by
  have hcopied : read (fill (fill p 0 10 0) 10 2 0xff) 0 4 = List.replicate 4 0 := rfl
  rw [mapAddress, hcopied]
  rfl

theorem isV4Mapped_mapAddress (p : Mem) : isV4Mapped (mapAddress p) := by
  have hbytes := congrArg (List.take 12) (read_mapAddress p)
  rw [take_read] at hbytes
  exact hbytes

theorem read_mapAddress_end (p : Mem) : read (mapAddress p) 12 4 = List.replicate 4 0 := rfl

/-- Every IPv4 address becomes the same IPv6 address. -/
theorem convert_inet6 {x : UIPAddress} (hx : x.iAddressType = afInet) :
    convertToAddressFamily x afInet6 =
      ⟨mapAddress x.pcAddress, 16, afInet6, true, true⟩ := by
  rw [convertToAddressFamily, hx]
  rfl

theorem convert_inet_mapAddress (p : Mem) :
    convertToAddressFamily ⟨mapAddress p, 16, afInet6, true, true⟩ afInet =
      ⟨write (mapAddress p) 0 (List.replicate 4 0), 4, afInet, true, true⟩ := by
  have htype : afInet6 ≠ afInet := by decide
  rw [convertToAddressFamily, if_pos htype, if_pos rfl, if_pos (isV4Mapped_mapAddress p),
    setAddress, read_mapAddress_end]
  rfl

section
variable {x : UIPAddress} (hx : x.iAddressType = afInet)
include hx

theorem mapped_iff : Mapped x ↔ read x.pcAddress 0 4 = List.replicate 4 0 := by
  rw [Mapped, convert_inet6 hx]
  dsimp only
  rw [read_mapAddress, List.append_cancel_left_eq]
  exact ⟨fun h => h.2.2.symm, fun h => ⟨rfl, rfl, h.symm⟩⟩

theorem restored_iff (hlength : x.iAddressLength = 4) :
    Restored x ↔ read x.pcAddress 0 4 = List.replicate 4 0 := by
  rw [Restored, convert_inet6 hx, convert_inet_mapAddress, hx, hlength]
  have hread : read (write (mapAddress x.pcAddress) 0 (List.replicate 4 0)) 0 4 =
      List.replicate 4 0 := rfl
  dsimp only
  rw [hread]
  exact ⟨fun h => h.2.2.symm, fun h => ⟨rfl, rfl, h.symm⟩⟩

end

/-- An address that is not mapped is taken for an IPv4 address all the same. -/
theorem convert_inet {x : UIPAddress} (hx : x.iAddressType = afInet6)
    (hmapped : ¬ isV4Mapped x.pcAddress) :
    convertToAddressFamily x afInet = ⟨x.pcAddress, x.iAddressLength, afInet, true, true⟩ := by
  have htype : afInet6 ≠ afInet := by decide
  rw [convertToAddressFamily, hx, if_pos htype, if_pos rfl, if_neg hmapped]

theorem not_unchanged {x : UIPAddress} (hx : x.iAddressType = afInet6)
    (hmapped : ¬ isV4Mapped x.pcAddress) : ¬ Unchanged x := by
  rintro ⟨htype, -⟩
  rw [convert_inet hx hmapped, hx] at htype
  cases htype

/-- Nothing but the address 0.0.0.0 is converted as it should be, and no conversion that cannot take
place leaves the family as it is. -/
theorem converted_iff {x y : UIPAddress} (hx : x.iAddressType = afInet)
    (hlength : x.iAddressLength = 4) (hy : y.iAddressType = afInet6)
    (hmapped : ¬ isV4Mapped y.pcAddress) :
    (Mapped x ∧ Restored x ↔ read x.pcAddress 0 4 = List.replicate 4 0) ∧ ¬ Unchanged y := by
  refine ⟨?_, not_unchanged hy hmapped⟩
  rw [mapped_iff hx, restored_iff hx hlength, and_self]

/-- 0.0.0.0, and the address ::1 -/
theorem converted_any :
    (Mapped ⟨fun _ => 0, 4, afInet, false, false⟩ ∧ Restored ⟨fun _ => 0, 4, afInet, false, false⟩ ↔
        read (fun _ => 0) 0 4 = List.replicate 4 0) ∧
      ¬ Unchanged ⟨write (fun _ => 0) 15 [1], 16, afInet6, false, false⟩ :=
  @converted_iff ⟨fun _ => 0, 4, afInet, false, false⟩
    ⟨write (fun _ => 0) 15 [1], 16, afInet6, false, false⟩ rfl rfl rfl (by decide)

/-- 127.0.0.1 becomes 0.0.0.0, and ::1 an address of the other family. -/
theorem not_converted :
    ¬ Mapped ⟨write (fun _ => 0) 0 [127, 0, 0, 1], 4, afInet, false, false⟩ ∧
      ¬ Restored ⟨write (fun _ => 0) 0 [127, 0, 0, 1], 4, afInet, false, false⟩ ∧
        ¬ Unchanged ⟨write (fun _ => 0) 15 [1], 16, afInet6, false, false⟩ := by
  refine ⟨?_, ?_, not_unchanged rfl (by decide)⟩
  · rw [mapped_iff rfl]
    decide
  · rw [restored_iff rfl rfl]
    decide

end ULib.AddressFamily

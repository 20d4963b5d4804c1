import Mathlib.Data.List.Basic

namespace Fopd.Consts

/-- Ticks of the clock behind `std::chrono::high_resolution_clock`, in nanoseconds. -/
abbrev Time := Int

inductive FopdStatus
  | ok
  | error
  deriving DecidableEq, Repr

inductive FopdPacketType
  | unknownPacket
  | damagePacket
  | entityClickPacket
  deriving DecidableEq, Repr

@[simp] abbrev serverCount : Nat := 12

structure Server where
  name : String
  address : String
  deriving DecidableEq, Repr

def foServers : Vector Server serverCount :=
  #v[⟨"FR - Cypian", "35.189.254.31"⟩, ⟨"FR - Hednis", "35.189.254.31"⟩, ⟨"FR - Albireo", "35.189.254.31"⟩,
    ⟨"ES - Enid", "35.233.4.109"⟩,
    ⟨"DE - Khazul", "34.78.7.253"⟩, ⟨"DE - Malephar", "46.253.147.130"⟩, ⟨"DE - Iyzel", "35.233.4.109"⟩,
    ⟨"NA - Enid", "35.185.11.255"⟩, ⟨"NA - Pagel", "35.185.11.255"⟩, ⟨"NA - Isya", "35.231.44.7"⟩,
    ⟨"NA - Jenira", "35.231.44.7"⟩, ⟨"NA - Cyral", "35.185.11.255"⟩]

@[simp] abbrev fopdPacketPayloadLenOffset : Nat := 0
@[simp] abbrev fopdPacketHeaderOffset : Nat := 1
@[simp] abbrev fopdPacketPayloadOffset : Nat := 3

@[simp] abbrev fopdPacketHeaderLen : Nat := 2
@[simp] abbrev fopdPacketPayloadMaxLen : Nat := 255

def fopdSpellDamagePacketHeaderB0 : UInt8 := 0x52
def fopdSpellDamagePacketHeaderB1 : UInt8 := 0x24

def fopdSpellDamagePacketHeader : Vector UInt8 fopdPacketHeaderLen :=
  ⟨#[fopdSpellDamagePacketHeaderB0, fopdSpellDamagePacketHeaderB1], rfl⟩

def fopdAADamagePacketHeaderB0 : UInt8 := 0x48
def fopdAADamagePacketHeaderB1 : UInt8 := 0x24

def fopdAADamagePacketHeader : Vector UInt8 fopdPacketHeaderLen :=
  ⟨#[fopdAADamagePacketHeaderB0, fopdAADamagePacketHeaderB1], rfl⟩

def fopdEntityClickPacketHeaderB0 : UInt8 := 0x02
def fopdEntityClickPacketHeaderB1 : UInt8 := 0x24

def fopdEntityClickPacketHeader : Vector UInt8 fopdPacketHeaderLen :=
  ⟨#[fopdEntityClickPacketHeaderB0, fopdEntityClickPacketHeaderB1], rfl⟩

end Fopd.Consts

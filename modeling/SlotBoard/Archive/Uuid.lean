import SlotBoard.Text.Hex

/-!
Random identifiers. Sixteen bytes are written in five groups of hexadecimal digits; six of their
bits are fixed and say that the others are random.
-/
namespace SlotBoard.Uuid

/-- Mark bytes as a random identifier: the version stands in the seventh byte, the variant in the
ninth. -/
def marked (bs : Bytes) : Bytes :=
  bs.mapIdx fun n b =>
    if n = 6 then (b &&& 0x0F) ||| 0x40
    else if n = 8 then (b &&& 0x3F) ||| 0x80
    else b

def ofBytes (bs : Bytes) : String :=
  let bs := marked bs
  let group := fun (start count : Nat) => Hex.ofBytes ((bs.drop start).take count)
  "-".intercalate [group 0 4, group 4 2, group 6 2, group 8 2, group 10 6]

end SlotBoard.Uuid

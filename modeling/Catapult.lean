import Catapult.Lib.BigEndian
import Catapult.Lib.Cursor
import Catapult.Lib.Stdio
import Catapult.Binary
import Catapult.BinarySound
import Catapult.Pul
import Catapult.Layout
import Catapult.ReadSound
import Catapult.WriteSound
import Catapult.ExportSound
import Catapult.Repack
import Catapult.ReadAny
import Catapult.ReadOrder
import Catapult.Lib.Printf
import Catapult.Print
import Catapult.Command
import Catapult.CommandSound
import Catapult.Crc32
import Catapult.Lib.Lfsr
import Catapult.Crc32Sound
import Catapult.Lib.LfsrPoly
import Catapult.Crc32Code
import Catapult.ExportText
import Catapult.PrintSound
import Catapult.ChecksumSound
import Catapult.WriteAny
import Catapult.Lib.Segments
import Catapult.Getopt
import Catapult.Scanner
import Catapult.GetoptSound
import Catapult.GetoptRun
import Catapult.Permute
import Catapult.Main
import Catapult.MainSound
import Catapult.Lib.LfsrCode
import Catapult.Crc32Errors
import Catapult.Program
import Catapult.Screen
import Catapult.Spelling

import RustyRapidgzip.Pipeline.BgzfCall
import RustyRapidgzip.Pipeline.Integrity
import RustyRapidgzip.Deflate.BlockFinder
import RustyRapidgzip.Deflate.PreloadRoom
import RustyRapidgzip.Deflate.SideTable
import RustyRapidgzip.Gzip.Concat
import RustyRapidgzip.Gzip.Member
import RustyRapidgzip.Pipeline.Body
import RustyRapidgzip.Pipeline.ReadStream
import RustyRapidgzip.Pipeline.Tail
import RustyRapidgzip.Backend.Libdeflate
import RustyRapidgzip.Backend.Isal
import RustyRapidgzip.Backend.Growth
import RustyRapidgzip.Backend.GzipMember
import RustyRapidgzip.Pipeline.ChunkSize
import RustyRapidgzip.Pipeline.Source
import RustyRapidgzip.Pipeline.Dispatch
import RustyRapidgzip.Deflate.Strict
import RustyRapidgzip.Pipeline.NoLoss
import RustyRapidgzip.Lib.Ledger
import RustyRapidgzip.Pipeline.Cap
import RustyRapidgzip.Pipeline.Streaming
import RustyRapidgzip.Pipeline.Tokens
import RustyRapidgzip.Deflate.Cursor
import RustyRapidgzip.Deflate.HuffmanExact
import RustyRapidgzip.Deflate.SafeTable
import RustyRapidgzip.Deflate.Copies
import RustyRapidgzip.Deflate.ChunkInvariant
import RustyRapidgzip.Deflate.WindowRoom
import RustyRapidgzip.Pipeline.StreamParallel
import RustyRapidgzip.Pipeline.DecodeAll
import RustyRapidgzip.Pipeline.Returns

import Compressly.Format
import Compressly.BitIO
import Compressly.BitIO.RoundTrip
import Compressly.Huffman.Basic
import Compressly.Huffman.Codes
import Compressly.Huffman.Trie
import Compressly.Huffman.Decode
import Compressly.Huffman.Decodable
import Compressly.Huffman.Lengths
import Compressly.Huffman.LengthLimit
import Compressly.Huffman.Optimal
import Compressly.Huffman.Depth
import Compressly.Huffman.Entropy
import Compressly.LZ77.Basic
import Compressly.LZ77.Finder
import Compressly.LZ77.Search
import Compressly.LZ77.Tokenize
import Compressly.LZ77.Detokenize
import Compressly.LZ77.Invariant
import Compressly.LZ77.Reference
import Compressly.LZ77.Repeats
import Compressly.LZ77.Effort
import Compressly.Deflate.Basic
import Compressly.Deflate.Tables
import Compressly.Deflate.Encode
import Compressly.Deflate.Decode
import Compressly.Deflate.RoundTrip
import Compressly.Deflate.Grammar
import Compressly.Deflate.Entropy
import Compressly.Block.Huffman
import Compressly.Block.HuffmanGrammar
import Compressly.Block.HuffmanEncode
import Compressly.Block.Lz77
import Compressly.Block.Lz77Grammar
import Compressly.Block.Lz77Encode
import Compressly.Block.Dictionary
import Compressly.Block.PrefixCodes
import Compressly.Block.Entropy
import Compressly.Block
import Compressly.Codec.Basic
import Compressly.Codec.Decode
import Compressly.Codec.Encode
import Compressly.Codec.Stream
import Compressly.Codec.RoundTrip
import Compressly.Codec.Sizes
import Compressly.Codec.Expansion
import Compressly.Codec.Trailing
import Compressly.Codec.ShortStream
import Compressly.Codec.Repeats
import Compressly.Codec.Independence
import Compressly.Codec.Output
import Compressly.Codec.Memory
import Compressly.Codec.Buffers
import Compressly.ThreadPool.Basic
import Compressly.ThreadPool.Invariant
import Compressly.ThreadPool.Protocol
import Compressly.ThreadPool.Order
import Compressly.ThreadPool.Wait
import Compressly.ThreadPool.Progress
import Compressly.ThreadPool.Construct
import Compressly.Codec.Pools
import Compressly.CApi
import Compressly.CApi.Decompress
import Compressly.CApi.Requests
import Compressly.CApi.Session
import Compressly.Service
import Compressly.Service.Connection
import Compressly.Service.Server
import Compressly.Cli.Arguments
import Compressly.Cli.Size
import Compressly.Cli.Run
import Compressly.Cli.Outcome
